import DmmGapbs.Proofs.SsspInvariant
import Mathlib.Data.List.GetD
import Mathlib.Algebra.BigOperators.Group.List

/-! Phase 2 of `Shmem_DeltaStep` from its entry state, for every size of every rank's next
bucket and every order in which rank 0 serves the `fetch_add`s. The reserved ranges tile
`[0, T)` in the order of service, so the scatter writes each entry once, at `copy_start + j`,
and the new frontier is the ranks' buckets concatenated in that order. -/

namespace DMM

variable {c : SsspCfg} {w w' : SsspWorld}

/-- The bin Phase 2 scatters: `local_bins[next_bin_index]`, if it exists. -/
def SsspRank.nextBin (r : SsspRank) : List Nat := if r.next < r.binsSize then r.bins r.next else []

/-- `T`: the sum of the ranks' next-bucket sizes. -/
def phase2Total (c : SsspCfg) (w : SsspWorld) : Nat :=
  ((List.range c.npes).map fun p => (w.ranks p).nextBin.length).sum

namespace SsspWorld

@[simp] theorem reserve_next (w : SsspWorld) (pe q : Nat) :
    ((w.reserve pe).ranks q).next = (w.ranks q).next := by
  simp only [SsspRank.next, reserve_iter, reserve_sharedIndexes]

@[simp] theorem reserve_nextBin (w : SsspWorld) (pe q : Nat) :
    ((w.reserve pe).ranks q).nextBin = (w.ranks q).nextBin := by
  simp only [SsspRank.nextBin, reserve_next, reserve_bins, reserve_binsSize]

theorem foldl_reserve_field {α : Type} (f : SsspRank → α)
    (hf : ∀ (w : SsspWorld) pe q, f ((w.reserve pe).ranks q) = f (w.ranks q)) :
    ∀ (order : List Nat) (w : SsspWorld) (q : Nat),
      f ((order.foldl (fun w pe => w.reserve pe) w).ranks q) = f (w.ranks q)
  | [], _, _ => rfl
  | pe :: order, w, q => (foldl_reserve_field f hf order (w.reserve pe) q).trans (hf w pe q)

theorem foldl_reserve_pc : ∀ (order : List Nat) (w : SsspWorld) (q : Nat),
    ((order.foldl (fun w pe => w.reserve pe) w).ranks q).pc =
      if q ∈ order then .wait3 else (w.ranks q).pc
  | [], _, _ => by simp
  | pe :: order, w, q => by
    rw [List.foldl_cons, foldl_reserve_pc order, reserve_pc]
    by_cases h : q ∈ order <;> by_cases h' : q = pe <;> simp [h, h']

theorem foldl_reserve_copyStart {q : Nat} : ∀ (order : List Nat) (w : SsspWorld), q ∉ order →
    ((order.foldl (fun w pe => w.reserve pe) w).ranks q).copyStart = (w.ranks q).copyStart
  | [], _, _ => rfl
  | pe :: order, w, hq => by
    rw [List.foldl_cons, foldl_reserve_copyStart order _ (fun h => hq (List.mem_cons_of_mem _ h)),
      reserve_copyStart, if_neg (by rintro ⟨rfl, -⟩; exact hq (List.mem_cons_self _ _))]

theorem frontierAt_slices (P : Partition) (w : SsspWorld) :
    (List.range P.n).map (w.frontierAt P) =
      (List.range P.npes).flatMap fun q => (List.range (P.width q)).map (w.ranks q).frontier := by
  rw [← P.flatMap_ranges, List.map_flatMap, List.flatMap_def, List.flatMap_def]
  congr 1
  refine List.map_congr_left fun q hq => ?_
  rw [List.range'_eq_map_range, List.map_map]
  refine List.map_congr_left fun i hi => ?_
  have hq' := List.mem_range.1 hq
  have hi' := List.mem_range.1 hi
  simp only [Function.comp, frontierAt, P.recv_start_add hq' hi', P.localPos_start_add hq' hi']

end SsspWorld

theorem SsspRank.holds_iff (r : SsspRank) (g : Nat) :
    r.Holds g ↔ r.copyStart ≤ g ∧ g < r.copyStart + r.nextBin.length := by
  unfold SsspRank.Holds SsspRank.nextBin
  split_ifs with h
  · simp only [h, true_and]
  · simp only [h, false_and, List.length_nil, Nat.add_zero, false_iff, not_and, Nat.not_lt]
    exact fun h' => h'

/-- After the reservations of `order`, the reserved ranges tile `[t0, t0 + |items|)`. -/
structure Tiled (w : SsspWorld) (order items : List Nat) (t0 : Nat) : Prop where
  fit : ∀ p ∈ order, (w.ranks p).next < (w.ranks p).binsSize →
    t0 ≤ (w.ranks p).copyStart ∧
      (w.ranks p).copyStart + ((w.ranks p).bins (w.ranks p).next).length ≤ t0 + items.length
  item : ∀ p ∈ order, ∀ g, (w.ranks p).Holds g → (w.ranks p).itemAt g = items.getD (g - t0) 0
  cover : ∀ g, t0 ≤ g → g < t0 + items.length → ∃ p ∈ order, (w.ranks p).Holds g
  disj : ∀ p ∈ order, ∀ q ∈ order, ∀ g, (w.ranks p).Holds g → (w.ranks q).Holds g → p = q

theorem reserve_tail_copyStart {pe : Nat} (hit : (w.ranks pe).iter = (w.ranks 0).iter) :
    ((w.reserve pe).ranks 0).nextTail = (w.ranks 0).nextTail + (w.ranks pe).nextBin.length ∧
    ((w.reserve pe).ranks pe).copyStart =
      if (w.ranks pe).next < (w.ranks pe).binsSize then (w.ranks 0).nextTail
      else (w.ranks pe).copyStart := by
  have ht := w.reserve_tail pe
  rw [hit] at ht
  refine ⟨?_, ?_⟩
  · simp only [SsspRank.nextTail, SsspWorld.reserve_iter, ht, SsspRank.nextBin]
    split_ifs <;> rfl
  · simp only [SsspWorld.reserve_copyStart, true_and, SsspRank.nextTail, hit]

theorem tiled_foldl_reserve : ∀ (order : List Nat) (w : SsspWorld), order.Nodup →
    (∀ p ∈ order, (w.ranks p).iter = (w.ranks 0).iter) →
    Tiled (order.foldl (fun w pe => w.reserve pe) w) order
        (order.flatMap fun p => (w.ranks p).nextBin) (w.ranks 0).nextTail ∧
      ((order.foldl (fun w pe => w.reserve pe) w).ranks 0).nextTail =
        (w.ranks 0).nextTail + (order.flatMap fun p => (w.ranks p).nextBin).length
  | [], w, _, _ => ⟨⟨fun _ h => absurd h (List.not_mem_nil _), fun _ h => absurd h (List.not_mem_nil _),
      fun _ _ h => by simp at h; omega, fun _ h => absurd h (List.not_mem_nil _)⟩, by simp⟩
  | p :: rest, w, hnd, hit => by
    simp only [List.foldl_cons, List.flatMap_cons, List.length_append]
    obtain ⟨hp, hnd'⟩ := List.nodup_cons.1 hnd
    obtain ⟨htail, hcs⟩ := reserve_tail_copyStart (hit p (List.mem_cons_self _ _))
    have hit' : ∀ q ∈ rest, ((w.reserve p).ranks q).iter = ((w.reserve p).ranks 0).iter :=
      fun q hq => by simp only [SsspWorld.reserve_iter]; exact hit q (List.mem_cons_of_mem _ hq)
    obtain ⟨ih, ihtail⟩ := tiled_foldl_reserve rest (w.reserve p) hnd' hit'
    set w' := rest.foldl (fun w pe => w.reserve pe) (w.reserve p)
    set t0 := (w.ranks 0).nextTail
    set s := (w.ranks p).nextBin
    set R := rest.flatMap fun q => (w.ranks q).nextBin
    have hR : (rest.flatMap fun q => ((w.reserve p).ranks q).nextBin) = R := by
      simp only [SsspWorld.reserve_nextBin, R]
    rw [hR, htail] at ih ihtail
    -- rank `p` as the later reservations leave it
    have keep : ∀ {α : Type} (f : SsspRank → α),
        (∀ (w : SsspWorld) pe q, f ((w.reserve pe).ranks q) = f (w.ranks q)) →
        f (w'.ranks p) = f (w.ranks p) := fun f hf =>
      (SsspWorld.foldl_reserve_field f hf rest _ p).trans (hf w p p)
    have hnext : (w'.ranks p).next = (w.ranks p).next := keep _ SsspWorld.reserve_next
    have hbins : (w'.ranks p).bins = (w.ranks p).bins := keep _ SsspWorld.reserve_bins
    have hsize : (w'.ranks p).binsSize = (w.ranks p).binsSize := keep _ SsspWorld.reserve_binsSize
    have hcs' : (w'.ranks p).copyStart = ((w.reserve p).ranks p).copyStart :=
      SsspWorld.foldl_reserve_copyStart rest _ hp
    -- what `p` holds: `[t0, t0 + |s|)`, with `s` in order
    have hholds : ∀ g, (w'.ranks p).Holds g ↔
        (w.ranks p).next < (w.ranks p).binsSize ∧ t0 ≤ g ∧ g < t0 + s.length := by
      intro g
      simp only [SsspRank.Holds, hnext, hbins, hsize, hcs', hcs, s, SsspRank.nextBin]
      constructor
      · rintro ⟨h1, h2, h3⟩; rw [if_pos h1] at h2 h3; exact ⟨h1, h2, by rwa [if_pos h1]⟩
      · rintro ⟨h1, h2, h3⟩; rw [if_pos h1]; rw [if_pos h1] at h3; exact ⟨h1, h2, h3⟩
    have hitem : ∀ g, (w'.ranks p).Holds g → (w'.ranks p).itemAt g = s.getD (g - t0) 0 := by
      intro g hg
      have h1 := ((hholds g).1 hg).1
      simp only [SsspRank.itemAt, hnext, hbins, hcs', hcs, if_pos h1, s, SsspRank.nextBin]
    have hrest : ∀ q ∈ rest, ∀ g, (w'.ranks q).Holds g → t0 + s.length ≤ g := fun q hq g hg =>
      (ih.fit q hq hg.1).1.trans hg.2.1
    refine ⟨⟨fun q hq hq' => ?_, fun q hq g hg => ?_, fun g h1 h2 => ?_, fun a ha b hb g h1 h2 => ?_⟩,
      by rw [ihtail, Nat.add_assoc]⟩
    · rw [List.length_append]
      rcases List.mem_cons.1 hq with rfl | hq
      · have h1 : (w.ranks q).next < (w.ranks q).binsSize := by rwa [hnext, hsize] at hq'
        simp only [hcs', hcs, if_pos h1, hnext, hbins]
        simp only [s, SsspRank.nextBin, if_pos h1]; omega
      · have := ih.fit q hq hq'; omega
    · rcases List.mem_cons.1 hq with rfl | hq
      · rw [hitem g hg, List.getD_append _ _ _ _ (by have := (hholds g).1 hg; omega)]
      · have h := hrest q hq g hg
        rw [ih.item q hq g hg, List.getD_append_right _ _ _ _ (by omega)]
        congr 1; omega
    · rw [List.length_append] at h2
      by_cases hg : g < t0 + s.length
      · have hne : s ≠ [] := by rintro hs; rw [hs] at hg; simp at hg; omega
        have hlt : (w.ranks p).next < (w.ranks p).binsSize := by
          by_contra hn; exact hne (by simp only [s, SsspRank.nextBin, if_neg hn])
        exact ⟨p, List.mem_cons_self _ _, (hholds g).2 ⟨hlt, h1, hg⟩⟩
      · obtain ⟨q, hq, hh⟩ := ih.cover g (by omega) (by omega)
        exact ⟨q, List.mem_cons_of_mem _ hq, hh⟩
    · rcases List.mem_cons.1 ha with rfl | ha₁ <;> rcases List.mem_cons.1 hb with rfl | hb₁
      · rfl
      · have := (hholds g).1 h1; have := hrest b hb₁ g h2; omega
      · have := (hholds g).1 h2; have := hrest a ha₁ g h1; omega
      · exact ih.disj a ha₁ b hb₁ g h1 h2

theorem ssspRun_reserves : ∀ (order : List Nat) (w : SsspWorld), order.Nodup →
    (∀ p ∈ order, p < (c.npes : Nat) ∧ (w.ranks p).pc = .reserve) →
    ssspRun c w (order.map .act) = some (order.foldl (fun w pe => w.reserve pe) w)
  | [], _, _, _ => rfl
  | p :: order, w, hnd, h => by
    obtain ⟨hp, hpc⟩ := h p (List.mem_cons_self _ _)
    have hstep : ssspStep c w (.act p) = some (w.reserve p) := by
      simp only [ssspStep, if_pos hp, hpc]
    simp only [List.map_cons, ssspRun, hstep, Option.some_bind, List.foldl_cons]
    refine ssspRun_reserves order _ (List.nodup_cons.1 hnd).2 fun q hq => ?_
    obtain ⟨hq1, hq2⟩ := h q (List.mem_cons_of_mem _ hq)
    rw [SsspWorld.reserve_pc, if_neg (fun e : q = p => (List.nodup_cons.1 hnd).1 (e ▸ hq)), hq2]
    exact ⟨hq1, rfl⟩

theorem ssspStep_sync_wait3 (hw : w.AllAt c .wait3) : ssspStep c w .sync = some (w.finish c) := by
  have h0 := hw 0 c.npes.pos
  have h1 : ¬w.AllAt c .wait1 := fun h => by rw [h 0 c.npes.pos] at h0; cases h0
  have h2 : ¬w.AllAt c .wait2 := fun h => by rw [h 0 c.npes.pos] at h0; cases h0
  simp only [ssspStep, if_neg h1, if_neg h2, if_pos hw]

theorem ssspStep_sync_wait2 (hw : w.AllAt c .wait2) : ssspStep c w .sync = some (w.vote c) := by
  have h1 : ¬w.AllAt c .wait1 := fun h => by have := hw 0 c.npes.pos; rw [h 0 c.npes.pos] at this; cases this
  simp only [ssspStep, if_neg h1, if_pos hw]

/-- The state Phase 2 starts from, right after the vote; nothing bounds the next buckets. -/
structure Phase2Entry (c : SsspCfg) (w : SsspWorld) : Prop where
  pc : w.AllAt c .reserve
  iter : ∀ pe < (c.npes : Nat), (w.ranks pe).iter = (w.ranks 0).iter
  tail : (w.ranks 0).nextTail = 0
  bins : ∀ pe < (c.npes : Nat), ∀ b, (w.ranks pe).bins b ≠ [] → b < (w.ranks pe).binsSize

theorem phase2Entry_vote (h : Inv c w) (hw : w.AllAt c .wait2) : Phase2Entry c (w.vote c) where
  pc _ _ := rfl
  iter pe hpe := h.ctl.iter pe hpe
  tail := by
    have hl := (h.ctl.loop (by rw [hw 0 c.npes.pos]; decide)).2.2
    simpa [SsspRank.nextTail, SsspRank.voted, Function.update_noteq (slot_ne _).symm] using hl
  bins := h.bins

theorem Phase2Entry.reserved (h : Phase2Entry c w) {order : List Nat}
    (hperm : order.Perm (List.range c.npes)) :
    Tiled (order.foldl (fun w pe => w.reserve pe) w) order (order.flatMap fun p => (w.ranks p).nextBin) 0 ∧
      ((order.foldl (fun w pe => w.reserve pe) w).ranks 0).nextTail = phase2Total c w ∧
      (order.flatMap fun p => (w.ranks p).nextBin).length = phase2Total c w := by
  have hT : (order.flatMap fun p => (w.ranks p).nextBin).length = phase2Total c w := by
    rw [List.flatMap_def, List.length_flatten, List.map_map]
    exact (hperm.map _).sum_eq
  obtain ⟨ht, htail⟩ := tiled_foldl_reserve order w (hperm.nodup_iff.2 (List.nodup_range _))
    fun p hp => h.iter p ((hperm.mem_iff.trans List.mem_range).1 hp)
  rw [h.tail] at ht htail
  exact ⟨ht, by rw [htail, Nat.zero_add, hT], hT⟩

theorem Phase2Entry.reserve_run (h : Phase2Entry c w) {order : List Nat}
    (hperm : order.Perm (List.range c.npes)) :
    ssspRun c w (order.map .act) = some (order.foldl (fun w pe => w.reserve pe) w) ∧
      (order.foldl (fun w pe => w.reserve pe) w).AllAt c .wait3 := by
  have hmem : ∀ p, p ∈ order ↔ p < (c.npes : Nat) := fun p => hperm.mem_iff.trans List.mem_range
  refine ⟨ssspRun_reserves order w (hperm.nodup_iff.2 (List.nodup_range _))
    fun p hp => ⟨(hmem p).1 hp, h.pc p ((hmem p).1 hp)⟩, fun q hq => ?_⟩
  rw [SsspWorld.foldl_reserve_pc, if_pos ((hmem q).2 hq)]

/-- What Phase 2 leaves, with `T = phase2Total c w` entries in the new frontier. -/
structure Phase2Result (c : SsspCfg) (w : SsspWorld) (order : List Nat) (w' : SsspWorld) : Prop where
  /-- Every rank's `next_frontier_tail` (its current tail once `iter` has moved) is `T`. -/
  tail : ∀ p < (c.npes : Nat), (w'.ranks p).currTail = phase2Total c w
  /-- Item `j` of rank `p`'s bucket is at global position `copy_start + j`. -/
  place : ∀ p < (c.npes : Nat), ∀ j < (w.ranks p).nextBin.length,
    (w'.ranks p).copyStart + j < phase2Total c w ∧
      w'.frontierAt (c.fp (phase2Total c w)) ((w'.ranks p).copyStart + j) =
        (w.ranks p).nextBin.getD j 0
  /-- Every position of the new frontier is in the reserved range of exactly one rank. -/
  once : ∀ g < phase2Total c w, ∃! p, p < (c.npes : Nat) ∧
    (w'.ranks p).copyStart ≤ g ∧ g < (w'.ranks p).copyStart + (w.ranks p).nextBin.length
  /-- The ranks' slices, concatenated, are the buckets in the order of service ... -/
  slices : ((List.range c.npes).flatMap fun q =>
      (List.range ((c.fp (phase2Total c w)).width q)).map (w'.ranks q).frontier) =
    order.flatMap fun p => (w.ranks p).nextBin
  /-- ... a permutation of the buckets in rank order. -/
  perm : ((List.range c.npes).flatMap fun q =>
      (List.range ((c.fp (phase2Total c w)).width q)).map (w'.ranks q).frontier).Perm
    ((List.range c.npes).flatMap fun p => (w.ranks p).nextBin)
  /-- Every rank's next bucket is empty. -/
  empty : ∀ p < (c.npes : Nat), (w'.ranks p).bins (w.ranks p).next = []

theorem map_range_getD {f : Nat → Nat} {l : List Nat} {n : Nat} (hn : l.length = n)
    (h : ∀ g < n, f g = l.getD g 0) : (List.range n).map f = l := by
  subst hn
  refine List.ext_getElem (by simp) fun i h1 h2 => ?_
  rw [List.getElem_map, List.getElem_range, h i h2, List.getD_eq_getElem _ _ h2]

theorem phase2_run (h : Phase2Entry c w) {order : List Nat} (hperm : order.Perm (List.range c.npes)) :
    ssspRun c w (order.map .act ++ [.sync]) = some ((order.foldl (fun w pe => w.reserve pe) w).finish c) ∧
      Phase2Result c w order ((order.foldl (fun w pe => w.reserve pe) w).finish c) := by
  have hmem : ∀ p, p ∈ order ↔ p < (c.npes : Nat) := fun p => hperm.mem_iff.trans List.mem_range
  obtain ⟨ht, htail, hT⟩ := h.reserved hperm
  obtain ⟨hrun, hw1⟩ := h.reserve_run hperm
  set w1 := order.foldl (fun w pe => w.reserve pe) w
  set items := order.flatMap fun p => (w.ranks p).nextBin
  -- rank `p` after the reservations, as far as its bucket goes
  have hbin : ∀ p, (w1.ranks p).nextBin = (w.ranks p).nextBin := fun p =>
    SsspWorld.foldl_reserve_field _ SsspWorld.reserve_nextBin order w p
  -- every position below `T` holds the entry of the one rank that reserved it
  have hfr : ∀ g < phase2Total c w, (w1.finish c).frontierAt (c.fp (phase2Total c w)) g = items.getD g 0 := by
    intro g hg
    have key := SsspWorld.frontierAt_scatter c hg (List.range c.npes) w1.broadcastTail
      (List.nodup_range _)
      (fun p _ => by rw [SsspWorld.broadcastTail_ranks, SsspRank.withNextTail_nextTail, htail])
      (fun p hp h' => (ht.fit p ((hmem p).2 (List.mem_range.1 hp)) h').2.trans_eq
        (by rw [Nat.zero_add, hT]))
      (fun a ha b hb => ht.disj a ((hmem a).2 (List.mem_range.1 ha)) b ((hmem b).2 (List.mem_range.1 hb)) g)
    obtain ⟨p, hp, hh⟩ := ht.cover g (Nat.zero_le _) (by omega)
    rw [SsspWorld.finish_frontierAt, key.1 p (List.mem_range.2 ((hmem p).1 hp)) hh,
      ← Nat.sub_zero g]
    exact ht.item p hp g hh
  have hsl : ((List.range c.npes).flatMap fun q =>
      (List.range ((c.fp (phase2Total c w)).width q)).map ((w1.finish c).ranks q).frontier) = items :=
    (SsspWorld.frontierAt_slices (c.fp (phase2Total c w)) _).symm.trans (map_range_getD hT hfr)
  refine ⟨?_, ⟨fun p _ => ?_, fun p hp j hj => ?_, fun g hg => ?_, hsl,
    hsl ▸ hperm.flatMap_right _, fun p hp => ?_⟩⟩
  · rw [ssspRun_append, hrun, Option.some_bind, ssspRun, ssspStep_sync_wait3 hw1]; rfl
  · -- tail
    simp only [SsspRank.currTail, SsspWorld.finish_iter, SsspWorld.finish_frontierTails,
      Function.update_same, htail]
  · -- place
    have hh : (w1.ranks p).Holds ((w1.ranks p).copyStart + j) := by
      rw [SsspRank.holds_iff, hbin]; omega
    have hlt := (ht.fit p ((hmem p).2 hp) hh.1).2
    have hg := hh.2.2
    rw [SsspWorld.finish_copyStart]
    refine ⟨by omega, ?_⟩
    rw [hfr _ (by omega), ← Nat.sub_zero (_ + j), ← ht.item p ((hmem p).2 hp) _ hh, SsspRank.itemAt,
      Nat.add_sub_cancel_left, ← hbin p, SsspRank.nextBin, if_pos hh.1]
  · -- once
    obtain ⟨p, hp, hh⟩ := ht.cover g (Nat.zero_le _) (by omega)
    refine ⟨p, ⟨(hmem p).1 hp, ?_⟩, fun q ⟨hq, hq'⟩ => ?_⟩
    · rw [SsspWorld.finish_copyStart, ← hbin]; exact (SsspRank.holds_iff _ _).1 hh
    · rw [SsspWorld.finish_copyStart, ← hbin, ← SsspRank.holds_iff] at hq'
      exact ht.disj q ((hmem q).2 hq) p hp g hq' hh
  · -- empty
    have hb : (w1.ranks p).bins = (w.ranks p).bins :=
      SsspWorld.foldl_reserve_field _ SsspWorld.reserve_bins order w p
    have hs : (w1.ranks p).binsSize = (w.ranks p).binsSize :=
      SsspWorld.foldl_reserve_field _ SsspWorld.reserve_binsSize order w p
    have hn : (w1.ranks p).next = (w.ranks p).next :=
      SsspWorld.foldl_reserve_field _ SsspWorld.reserve_next order w p
    rw [SsspWorld.finish_bins hp, ← hn]
    split_ifs with hlt
    · exact Function.update_same _ _ _
    · rw [hb, hn]; by_contra hne; rw [hs, hn] at hlt; exact hlt (h.bins p hp _ hne)

/-! ### `frontier` as allocated -/

namespace SsspWorld

variable (c)

theorem phase2Puts_scatterRank (w : SsspWorld) {pe q : Nat} (hq : q ≠ pe) :
    (w.scatterRank c pe).phase2Puts c q = w.phase2Puts c q := by
  obtain ⟨f, hf⟩ := scatterRank_ranks c w pe q
  simp [phase2Puts, hf, hq, SsspRank.next, SsspRank.nextTail]

theorem foldlM_scatterRankIn : ∀ (L : List Nat) (w : SsspWorld), L.Nodup →
    (∀ pe ∈ L, ∀ p ∈ w.phase2Puts c pe, p.off + p.items.length ≤ c.ep.maxWidth) →
    L.foldlM (fun (w : SsspWorld) pe => w.scatterRankIn c pe) w =
      some (L.foldl (fun w pe => w.scatterRank c pe) w)
  | [], _, _, _ => rfl
  | pe :: L, w, hnd, hfit => by
    obtain ⟨hpe, hnd⟩ := List.nodup_cons.1 hnd
    have h1 : w.scatterRankIn c pe = some (w.scatterRank c pe) := by
      simp only [scatterRankIn, List.all_eq_true, decide_eq_true_eq]
      exact if_pos (hfit pe (List.mem_cons_self _ _))
    rw [List.foldlM_cons, h1, Option.bind_eq_bind, Option.some_bind]
    refine foldlM_scatterRankIn L _ hnd fun q hq p hp => hfit q (List.mem_cons_of_mem _ hq) p ?_
    rwa [phase2Puts_scatterRank c w fun h : q = pe => hpe (h ▸ hq)] at hp

theorem foldlM_scatterRankIn_some : ∀ (L : List Nat) (w w' : SsspWorld),
    L.foldlM (fun (w : SsspWorld) pe => w.scatterRankIn c pe) w = some w' →
    L.foldl (fun w pe => w.scatterRank c pe) w = w'
  | [], _, _, h => Option.some.inj h
  | pe :: L, w, w', h => by
    rw [List.foldlM_cons, Option.bind_eq_bind] at h
    unfold scatterRankIn at h
    split_ifs at h
    · exact foldlM_scatterRankIn_some L _ _ h
    · simp at h

theorem finishIn_some (w : SsspWorld) (h : w.finishIn c = some w') : w.finish c = w' := by
  simp only [finishIn, Option.map_eq_some'] at h
  obtain ⟨w1, h1, rfl⟩ := h
  rw [finish, foldlM_scatterRankIn_some c _ _ _ h1]

theorem finishIn_of_fit (w : SsspWorld)
    (h : ∀ pe < (c.npes : Nat), ∀ p ∈ w.broadcastTail.phase2Puts c pe,
      p.off + p.items.length ≤ c.ep.maxWidth) : w.finishIn c = some (w.finish c) := by
  rw [finishIn, foldlM_scatterRankIn c _ _ (List.nodup_range _)
    fun pe hpe => h pe (List.mem_range.1 hpe)]
  rfl

end SsspWorld

theorem ssspStepIn_some {e : SsspEvent} (h : ssspStepIn c w e = some w') : ssspStep c w e = some w' := by
  unfold ssspStepIn at h
  split_ifs at h with he
  · obtain ⟨rfl, hw⟩ := he
    rw [ssspStep_sync_wait3 hw, SsspWorld.finishIn_some c w h]
  · exact h

/-- Every run on `frontier` as allocated is a run of the model with `frontier` unbounded. -/
theorem ssspRun_of_ssspRunIn : ∀ (evs : List SsspEvent) (w w' : SsspWorld),
    ssspRunIn c w evs = some w' → ssspRun c w evs = some w'
  | [], _, _, h => h
  | e :: evs, w, w', h => by
    simp only [ssspRunIn, ssspRun, Option.bind_eq_some] at h ⊢
    obtain ⟨w1, h1, h2⟩ := h
    exact ⟨w1, ssspStepIn_some h1, ssspRun_of_ssspRunIn evs w1 w' h2⟩

theorem ssspRunIn_acts_append : ∀ (pes : List Nat) (es : List SsspEvent) (w : SsspWorld),
    ssspRunIn c w (pes.map .act ++ es) = (ssspRun c w (pes.map .act)).bind fun w' => ssspRunIn c w' es
  | [], _, _ => rfl
  | pe :: pes, es, w => by
    simp only [List.map_cons, List.cons_append, ssspRunIn, ssspRun, ssspStepIn, reduceCtorEq,
      false_and, if_false]
    cases ssspStep c w (.act pe) with
    | none => rfl
    | some w' => exact ssspRunIn_acts_append pes es w'

theorem phase2_puts_fit (h : Phase2Entry c w) {order : List Nat}
    (hperm : order.Perm (List.range c.npes))
    (hfit : (c.fp (phase2Total c w)).maxWidth ≤ c.ep.maxWidth) :
    ∀ pe < (c.npes : Nat), ∀ p ∈ (order.foldl (fun w pe => w.reserve pe) w).broadcastTail.phase2Puts c pe,
      p.off + p.items.length ≤ c.ep.maxWidth := by
  obtain ⟨ht, htail, hT⟩ := h.reserved hperm
  intro pe hpe p hp
  simp only [SsspWorld.phase2Puts, SsspWorld.broadcastTail_ranks, SsspRank.withNextTail_nextTail,
    htail] at hp
  dsimp only [SsspRank.withNextTail, SsspRank.next] at hp
  split_ifs at hp with hlt
  · have hcs := (ht.fit pe ((hperm.mem_iff.trans List.mem_range).2 hpe) hlt).2
    rw [Nat.zero_add, hT] at hcs
    have hq := (scatterPuts_fit _ _ (by show _ ≤ phase2Total c w; omega) p hp).2
    exact hq.trans (((c.fp _).width_le_maxWidth _).trans hfit)
  · cases hp

/-- Phase 2 on `frontier` as allocated, when the new frontier's slices fit `ep.max_width`. -/
theorem phase2_scatter_allocated (h : Phase2Entry c w) {order : List Nat}
    (hperm : order.Perm (List.range c.npes))
    (hfit : (c.fp (phase2Total c w)).maxWidth ≤ c.ep.maxWidth) :
    ∃ w', ssspRunIn c w (order.map .act ++ [.sync]) = some w' ∧ Phase2Result c w order w' := by
  obtain ⟨hw1, hw3⟩ := h.reserve_run hperm
  refine ⟨_, ?_, (phase2_run h hperm).2⟩
  rw [ssspRunIn_acts_append, hw1, Option.some_bind, ssspRunIn, ssspStepIn, if_pos ⟨rfl, hw3⟩,
    SsspWorld.finishIn_of_fit c _ (phase2_puts_fit h hperm hfit)]
  rfl

/-- A Phase-2 entry on two ranks: bucket 1 holds `[3, 2]` on rank 0 and `[1]` on rank 1. -/
def twoBuckets : SsspWorld where
  dist _ := 0
  ranks pe :=
    { pc := .reserve, bins := fun b => if b = 1 then (if pe = 0 then [3, 2] else [1]) else [],
      binsSize := 2, iter := 0, sharedIndexes := fun i => if i = 0 then kMaxBin else 1,
      frontierTails := fun _ => 0, frontier := fun _ => 0, copyStart := 0 }

theorem twoBuckets_entry : Phase2Entry (weightedDiamond 2) twoBuckets where
  pc _ _ := rfl
  iter _ _ := rfl
  tail := rfl
  bins _ _ b hb := by
    simp only [twoBuckets] at hb ⊢
    split_ifs at hb <;> first | omega | exact absurd rfl hb

theorem phase2_scatter_twoBuckets : Phase2Entry (weightedDiamond 2) twoBuckets ∧
    [1, 0].Perm (List.range ((weightedDiamond 2).npes : Nat)) ∧
    ((weightedDiamond 2).fp (phase2Total (weightedDiamond 2) twoBuckets)).maxWidth ≤
      (weightedDiamond 2).ep.maxWidth ∧
    ∃ w', ssspRunIn (weightedDiamond 2) twoBuckets ([1, 0].map .act ++ [.sync]) = some w' ∧
      Phase2Result (weightedDiamond 2) twoBuckets [1, 0] w' :=
  ⟨twoBuckets_entry, by decide, by decide, phase2_scatter_allocated twoBuckets_entry (by decide) (by decide)⟩

/-- Served rank 1 first, the new frontier is `[1, 3, 2]`: rank 0's slice `[1]`, rank 1's `[3, 2]`. -/
example : (ssspRun (weightedDiamond 2) twoBuckets ([1, 0].map .act ++ [.sync])).map
    (fun w => (List.range 3).map (w.frontierAt ((weightedDiamond 2).fp 3))) = some [1, 3, 2] := by
  decide

/-- `fanOutSchedule` up to the Phase-2 barrier: every rank waits for the vote. -/
def fanOutToVote : List SsspEvent := [.act 1, .act 0] ++ List.replicate 18 (.act 2) ++
  [.sync, .act 1, .act 0, .act 2]

theorem phase2_scatter_overruns_fanOut : ∃ w₀, ssspRunIn fanOut (ssspInit fanOut) fanOutToVote = some w₀ ∧
    w₀.AllAt fanOut .wait2 ∧ Phase2Entry fanOut (w₀.vote fanOut) ∧
    [0, 2, 1].Perm (List.range (fanOut.npes : Nat)) ∧
    ssspRunIn fanOut (w₀.vote fanOut) ([0, 2, 1].map .act ++ [.sync]) = none := by
  have key : (ssspRunIn fanOut (ssspInit fanOut) fanOutToVote).map (fun w₀ => decide (w₀.AllAt fanOut .wait2 ∧
      (ssspRunIn fanOut (w₀.vote fanOut) ([0, 2, 1].map .act ++ [.sync])).isNone)) = some true := by decide
  obtain ⟨w₀, hr, hP⟩ := Option.map_eq_some'.1 key
  obtain ⟨hw2, hnone⟩ := of_decide_eq_true hP
  have hw := SsspReach.of_run fanOutToVote .init (ssspRun_of_ssspRunIn fanOutToVote _ _ hr)
  exact ⟨w₀, hr, hw2, phase2Entry_vote (inv_of_reach (by decide) hw) hw2, by decide,
    Option.isNone_iff_eq_none.1 hnone⟩

end DMM
