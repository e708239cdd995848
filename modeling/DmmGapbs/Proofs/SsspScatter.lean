import DmmGapbs.Sanity.SsspStep

/-! Where the Phase-2 scatter of `Shmem_DeltaStep` writes. Every put of a rank lands inside the
slice the partition `nftp` of the new frontier gives its target, but `frontier` was allocated
with `ep.max_width` cells, from the partition of `num_edges_directed`, and a slice of `nftp`
can be wider than that. -/

namespace DMM

namespace Partition

variable (p : Partition)

theorem partRem_eq (i lcs : Nat) :
    (if i ≠ p.npes - 1 then p.partitionWidth - lcs else p.maxWidth - lcs) = p.width i - lcs := by
  split_ifs with h
  · rw [p.width_of_ne h]
  · rw [not_not.1 h, p.width_tail]

end Partition

theorem scatterLoop_fit (nftp : Partition) (items : List Nat) :
    ∀ (k i lcs prior : Nat), lcs ≤ nftp.width i → ∀ q ∈ scatterLoop nftp items k i lcs prior,
      i ≤ q.pe ∧ q.pe < i + k ∧ q.off + q.items.length ≤ nftp.width q.pe
  | 0, _, _, _, _, q, hq => by simp [scatterLoop] at hq
  | k + 1, i, lcs, prior, hlcs, q, hq => by
    simp only [scatterLoop, nftp.partRem_eq] at hq
    split_ifs at hq with hlt
    · rcases List.mem_cons.1 hq with rfl | hq
      · simp only [List.length_take]; omega
      · have := scatterLoop_fit nftp items k (i + 1) 0 _ (Nat.zero_le _) q hq; omega
    · rw [List.mem_singleton] at hq; subst hq
      simp only [List.length_take]; omega

theorem scatterPuts_fit (nftp : Partition) (items : List Nat) {cs : Nat} (hcs : cs ≤ nftp.n) :
    ∀ q ∈ scatterPuts nftp items cs, q.pe < nftp.npes ∧ q.off + q.items.length ≤ nftp.width q.pe :=
  fun q hq =>
    have h := scatterLoop_fit nftp items _ _ _ 0 (nftp.localPos_le_width hcs) q hq
    ⟨by have := nftp.recv_lt cs; omega, h.2.2⟩

theorem getD_take_drop (l : List Nat) {a m t : Nat} (ht : t < m) :
    ((l.drop a).take m).getD t 0 = l.getD (a + t) 0 := by
  simp [List.getElem?_take_of_lt ht]

theorem ite_ite_eq {α : Type} {A B C : Prop} [Decidable A] [Decidable B] [Decidable C] {x y z : α}
    (hC : C ↔ A ∨ B) (hy : B → ¬A → y = x) :
    (if A then x else if B then y else z) = if C then x else z := by
  by_cases hA : A
  · rw [if_pos hA, if_pos (hC.mpr (.inl hA))]
  · by_cases hB : B
    · rw [if_neg hA, if_pos hB, if_pos (hC.mpr (.inr hB)), hy hB hA]
    · rw [if_neg hA, if_neg hB, if_neg fun h => (hC.mp h).elim hA hB]

namespace SsspWorld

/-- `frontier` read as one array of `P.n` entries through the partition `P`. -/
def frontierAt (P : Partition) (w : SsspWorld) (g : Nat) : Nat :=
  (w.ranks (P.recv g)).frontier (P.localPos g)

theorem frontierAt_applyPut (P : Partition) (w : SsspWorld) {q : Put} (hq : q.pe < P.npes)
    (hfit : q.off + q.items.length ≤ P.width q.pe) (g : Nat) :
    (w.applyPut q).frontierAt P g =
      if P.start q.pe + q.off ≤ g ∧ g < P.start q.pe + q.off + q.items.length then
        q.items.getD (g - (P.start q.pe + q.off)) 0 else w.frontierAt P g := by
  have h1 := P.start_recv_add g
  have h2 := P.start_le_stop hq
  simp only [frontierAt, applyPut_ranks]
  by_cases hr : P.recv g = q.pe
  · rw [if_pos hr, hr]
    rw [hr] at h1
    simp only [putmem, show P.localPos g - q.off = g - (P.start q.pe + q.off) by omega]
    congr 1; simp only [eq_iff_iff]; omega
  · rw [if_neg hr, if_neg]
    rintro ⟨ha, hb⟩
    exact hr (P.recv_eq_of_mem hq (by omega) (by simp only [Partition.width] at hfit; omega))

end SsspWorld

theorem frontierAt_scatterLoop (P : Partition) (items : List Nat) {cs : Nat}
    (hcs : cs + items.length ≤ P.n) : ∀ (k i lcs prior : Nat) (w : SsspWorld), i < P.npes →
      i + k = P.npes → lcs ≤ P.width i → P.start i + lcs = cs + prior → prior ≤ items.length →
      ∀ g < P.n, ((scatterLoop P items k i lcs prior).foldl SsspWorld.applyPut w).frontierAt P g =
        if cs + prior ≤ g ∧ g < cs + items.length then items.getD (g - cs) 0
        else w.frontierAt P g := by
  intro k
  induction k with
  | zero => intro _ _ _ _ hi hk; omega
  | succ k ih =>
    intro i lcs prior w hi hk hlcs hpos hprior g hg
    have hstop := P.start_le_stop hi
    simp only [scatterLoop, P.partRem_eq]
    by_cases hlt : P.width i - lcs < items.length - prior
    · -- the bin runs past rank `i`'s slice: fill it and go on at rank `i + 1`
      rw [if_pos hlt]
      have hne : i ≠ P.npes - 1 := by
        rintro rfl; simp only [Partition.width, P.stop_tail] at hlt hlcs; omega
      have hw := P.width_of_ne hne
      rw [List.foldl_cons, ih (i + 1) 0 _ _ (by omega) (by omega)
        (Nat.zero_le _) (by rw [P.start_succ]; omega) (by omega) g hg,
        SsspWorld.frontierAt_applyPut P w hi (by simp only [List.length_take]; omega) g]
      simp only [List.length_take, List.length_drop]
      exact ite_ite_eq (by omega) fun _ _ => by rw [getD_take_drop _ (by omega)]; congr 1; omega
    · -- the rest of the bin fits in rank `i`'s slice
      rw [if_neg hlt, List.foldl_cons, List.foldl_nil,
        SsspWorld.frontierAt_applyPut P w hi (by simp only [List.length_take]; omega) g]
      simp only [List.length_take, List.length_drop]
      exact ite_congr (propext (by omega))
        (fun _ => by rw [getD_take_drop _ (by omega)]; congr 1; omega) fun _ => rfl

theorem frontierAt_scatterPuts (P : Partition) (items : List Nat) {cs : Nat}
    (hcs : cs + items.length ≤ P.n) (w : SsspWorld) {g : Nat} (hg : g < P.n) :
    ((scatterPuts P items cs).foldl SsspWorld.applyPut w).frontierAt P g =
      if cs ≤ g ∧ g < cs + items.length then items.getD (g - cs) 0 else w.frontierAt P g := by
  have := P.recv_lt cs
  rw [scatterPuts, frontierAt_scatterLoop P items hcs _ _ _ 0 w this (by omega)
    (P.localPos_le_width (by omega)) (P.start_recv_add cs) (Nat.zero_le _) g hg, Nat.add_zero]

namespace SsspRank

/-- Rank `r` reserved position `g` of the new frontier. -/
def Holds (r : SsspRank) (g : Nat) : Prop :=
  r.next < r.binsSize ∧ r.copyStart ≤ g ∧ g < r.copyStart + (r.bins r.next).length

instance (r : SsspRank) (g : Nat) : Decidable (r.Holds g) := inferInstanceAs (Decidable (_ ∧ _ ∧ _))

def itemAt (r : SsspRank) (g : Nat) : Nat := (r.bins r.next).getD (g - r.copyStart) 0

end SsspRank

namespace SsspWorld

variable (c : SsspCfg)

theorem applyPuts_ranks (ps : List Put) (w : SsspWorld) (q : Nat) :
    ∃ f, (ps.foldl applyPut w).ranks q = { w.ranks q with frontier := f } := by
  induction ps generalizing w with
  | nil => exact ⟨_, rfl⟩
  | cons p ps ih =>
    obtain ⟨f, hf⟩ := ih (w.applyPut p)
    rw [List.foldl_cons, hf, applyPut_ranks]
    split_ifs <;> exact ⟨f, rfl⟩

theorem frontierAt_setRank_bins (w : SsspWorld) (pe : Nat) (b : Nat → List Nat) (P : Partition) :
    (w.setRank pe { w.ranks pe with bins := b }).frontierAt P = w.frontierAt P := by
  funext g
  simp only [frontierAt, setRank_ranks]
  split_ifs with h
  · rw [h]
  · rfl

theorem scatterRank_ranks (w : SsspWorld) (pe q : Nat) : ∃ f, (w.scatterRank c pe).ranks q =
    { w.ranks q with
      frontier := f
      bins := if q = pe ∧ (w.ranks pe).next < (w.ranks pe).binsSize then
        Function.update (w.ranks q).bins (w.ranks q).next [] else (w.ranks q).bins } := by
  dsimp only [scatterRank]
  split_ifs with h1 h2 h2
  · obtain ⟨rfl, -⟩ := h2
    obtain ⟨f, hf⟩ := applyPuts_ranks (w.phase2Puts c q) w q
    rw [setRank_ranks, if_pos rfl, hf]; exact ⟨f, rfl⟩
  · obtain ⟨f, hf⟩ := applyPuts_ranks (w.phase2Puts c pe) w q
    rw [setRank_ranks, if_neg (fun h => h2 ⟨h, h1⟩), hf]; exact ⟨f, rfl⟩
  · exact absurd h2.2 h1
  · exact ⟨_, rfl⟩

theorem frontierAt_scatterRank (w : SsspWorld) {pe T : Nat} (hT : (w.ranks pe).nextTail = T)
    (hfit : (w.ranks pe).next < (w.ranks pe).binsSize →
      (w.ranks pe).copyStart + ((w.ranks pe).bins (w.ranks pe).next).length ≤ T)
    {g : Nat} (hg : g < T) : (w.scatterRank c pe).frontierAt (c.fp T) g =
      if (w.ranks pe).Holds g then (w.ranks pe).itemAt g else w.frontierAt (c.fp T) g := by
  dsimp only [scatterRank]
  split_ifs with h1 h2 h2
  · rw [frontierAt_setRank_bins, phase2Puts, if_pos h1, hT,
      frontierAt_scatterPuts _ _ (hfit h1) w hg, if_pos h2.2]; rfl
  · rw [frontierAt_setRank_bins, phase2Puts, if_pos h1, hT,
      frontierAt_scatterPuts _ _ (hfit h1) w hg, if_neg (fun h => h2 ⟨h1, h⟩)]
  · exact absurd h2.1 h1
  · rfl

theorem scatter_ranks : ∀ (L : List Nat) (w : SsspWorld), L.Nodup → ∀ q, ∃ f,
    (L.foldl (fun w pe => w.scatterRank c pe) w).ranks q =
    { w.ranks q with
      frontier := f
      bins := if q ∈ L ∧ (w.ranks q).next < (w.ranks q).binsSize then
        Function.update (w.ranks q).bins (w.ranks q).next [] else (w.ranks q).bins }
  | [], w, _, q => ⟨(w.ranks q).frontier, by simp⟩
  | p :: L, w, hL, q => by
    obtain ⟨f1, h1⟩ := scatterRank_ranks c w p q
    obtain ⟨f2, h2⟩ := scatter_ranks L (w.scatterRank c p) (List.nodup_cons.1 hL).2 q
    refine ⟨f2, ?_⟩
    rw [List.foldl_cons, h2, h1]
    by_cases hq : q = p
    · subst hq; simp [(List.nodup_cons.1 hL).1]
    · simp only [hq, false_and, if_false, List.mem_cons, false_or]; rfl

theorem frontierAt_scatter {T g : Nat} (hg : g < T) : ∀ (L : List Nat) (w : SsspWorld), L.Nodup →
    (∀ p ∈ L, (w.ranks p).nextTail = T) →
    (∀ p ∈ L, (w.ranks p).next < (w.ranks p).binsSize →
      (w.ranks p).copyStart + ((w.ranks p).bins (w.ranks p).next).length ≤ T) →
    (∀ p ∈ L, ∀ q ∈ L, (w.ranks p).Holds g → (w.ranks q).Holds g → p = q) →
    (∀ p ∈ L, (w.ranks p).Holds g →
      (L.foldl (fun w pe => w.scatterRank c pe) w).frontierAt (c.fp T) g = (w.ranks p).itemAt g) ∧
    ((∀ p ∈ L, ¬(w.ranks p).Holds g) →
      (L.foldl (fun w pe => w.scatterRank c pe) w).frontierAt (c.fp T) g = w.frontierAt (c.fp T) g)
  | [], _, _, _, _, _ => ⟨fun _ h => absurd h (List.not_mem_nil _), fun _ => rfl⟩
  | p :: L, w, hL, hT, hfit, hdis => by
    obtain ⟨hp, hL'⟩ := List.nodup_cons.1 hL
    -- the ranks still to scatter are as they were
    have e : ∀ q ∈ L, ∃ f, (w.scatterRank c p).ranks q = { w.ranks q with frontier := f } := by
      intro q hq
      obtain ⟨f, h⟩ := scatterRank_ranks c w p q
      rw [if_neg (by rintro ⟨rfl, -⟩; exact hp hq)] at h
      exact ⟨f, h⟩
    have same : ∀ q ∈ L, (w.scatterRank c p).ranks q = { w.ranks q with
        frontier := ((w.scatterRank c p).ranks q).frontier } := fun q hq => by
      obtain ⟨f, h⟩ := e q hq; rw [h]
    have ih := frontierAt_scatter hg L (w.scatterRank c p) hL'
      (fun q hq => by rw [same q hq]; exact hT q (List.mem_cons_of_mem _ hq))
      (fun q hq => by rw [same q hq]; exact hfit q (List.mem_cons_of_mem _ hq))
      (fun a ha b hb => by
        rw [same a ha, same b hb]
        exact hdis a (List.mem_cons_of_mem _ ha) b (List.mem_cons_of_mem _ hb))
    have hp' := frontierAt_scatterRank c w (hT p (List.mem_cons_self _ _))
      (hfit p (List.mem_cons_self _ _)) hg
    rw [List.foldl_cons]
    refine ⟨fun q hq hh => ?_, fun hn => ?_⟩
    · rcases List.mem_cons.1 hq with rfl | hq
      · rw [ih.2 (fun r hr hr' => ?_), hp', if_pos hh]
        rw [same r hr] at hr'
        exact hp (hdis _ (List.mem_cons_self _ _) r (List.mem_cons_of_mem _ hr) hh hr' ▸ hr)
      · rw [ih.1 q hq (by rw [same q hq]; exact hh), same q hq]; rfl
    · rw [ih.2 (fun r hr => by rw [same r hr]; exact hn r (List.mem_cons_of_mem _ hr)), hp',
        if_neg (hn p (List.mem_cons_self _ _))]

section Finish

variable {c} {w : SsspWorld}

theorem finish_bins {q : Nat} (hq : q < (c.npes : Nat)) : ((w.finish c).ranks q).bins =
    if (w.ranks q).next < (w.ranks q).binsSize then
      Function.update (w.ranks q).bins (w.ranks q).next [] else (w.ranks q).bins := by
  obtain ⟨f, hf⟩ := scatter_ranks c (List.range c.npes) w.broadcastTail (List.nodup_range _) q
  rw [finish_rank, hf]
  simp only [List.mem_range, hq, true_and]; rfl

@[simp] theorem finish_binsSize (q : Nat) :
    ((w.finish c).ranks q).binsSize = (w.ranks q).binsSize := by
  obtain ⟨f, hf⟩ := scatter_ranks c (List.range c.npes) w.broadcastTail (List.nodup_range _) q
  rw [finish_rank, hf]; rfl

@[simp] theorem finish_copyStart (q : Nat) :
    ((w.finish c).ranks q).copyStart = (w.ranks q).copyStart := by
  obtain ⟨f, hf⟩ := scatter_ranks c (List.range c.npes) w.broadcastTail (List.nodup_range _) q
  rw [finish_rank, hf]; rfl

theorem finish_frontierAt (P : Partition) : (w.finish c).frontierAt P =
    ((List.range c.npes).foldl (fun w pe => w.scatterRank c pe) w.broadcastTail).frontierAt P :=
  rfl

end Finish

end SsspWorld

/-- Bucket 5 holds five entries, all on one of three ranks: a slice of three cells where
`ep.max_width = 2`. -/
def fanOut : SsspCfg :=
  ⟨WGraph.ofAdj [[(1, 5), (2, 5), (3, 5), (4, 5), (5, 5)], [(2, 100)], [], [], [], []], 0, 1, 3⟩

/-- Rank 2 relaxes the source's five edges; the vote picks bucket 5 and all ranks reserve. -/
def fanOutSchedule : List SsspEvent :=
  [.act 1, .act 0] ++ List.replicate 18 (.act 2) ++
    [.sync, .act 1, .act 0, .act 2, .sync, .act 0, .act 2, .act 1]

/-- A reachable state at the scatter where rank 2 puts past `ep.max_width`. -/
theorem phase2_put_exceeds_frontier : ∃ w, SsspReach fanOut w ∧ w.AllAt fanOut .wait3 ∧
    ∃ q ∈ w.broadcastTail.phase2Puts fanOut 2, fanOut.ep.maxWidth < q.off + q.items.length := by
  have key : (ssspRun fanOut (ssspInit fanOut) fanOutSchedule).map (fun w =>
      decide (w.AllAt fanOut .wait3 ∧ ∃ q ∈ w.broadcastTail.phase2Puts fanOut 2,
        fanOut.ep.maxWidth < q.off + q.items.length)) = some true := by decide
  cases hr : ssspRun fanOut (ssspInit fanOut) fanOutSchedule with
  | none => simp [hr] at key
  | some w =>
    simp only [hr, Option.map_some', Option.some.injEq, decide_eq_true_eq] at key
    exact ⟨w, SsspReach.of_run fanOutSchedule .init hr, key⟩

end DMM
