import DmmGapbs.Proofs.BuilderBarriers

/-! What `MakeCSR` stores, and what `SquishCSR` makes of it. `SquishCSR`'s pass over one vertex
leaves a strictly increasing list of the neighbours other than the vertex itself. But a rank
that issues fewer barriers in `CountDegrees` runs `ParallelPrefixSum` while another rank still
increments its degrees: the vertex's segment of `neighs` is cut short, and a neighbour lands
past it. -/

namespace DMM

section Squish

theorem mem_destutter'_ne (x a : Nat) (l : List Nat) :
    x ∈ l.destutter' (· ≠ ·) a ↔ x = a ∨ x ∈ l := by
  induction l generalizing a with
  | nil => simp
  | cons b l ih =>
    rw [List.destutter'_cons]
    split_ifs with hab
    · rw [List.mem_cons, ih]
      simp
    · rw [ih]
      simp_all

theorem pairwise_destutter'_ne (a : Nat) (l : List Nat) (h : (a :: l).Pairwise (· ≤ ·)) :
    (l.destutter' (· ≠ ·) a).Pairwise (· < ·) := by
  induction l generalizing a with
  | nil => simp
  | cons b l ih =>
    rw [List.destutter'_cons]
    obtain ⟨hab, hal⟩ := List.pairwise_cons.1 h
    split_ifs with hne
    · have hb := List.pairwise_cons.1 hal
      refine List.pairwise_cons.2 ⟨fun y hy => ?_, ih b hal⟩
      rcases (mem_destutter'_ne y b l).1 hy with rfl | hy
      · exact lt_of_le_of_ne (hab y (List.mem_cons_self _ _)) hne
      · exact lt_of_lt_of_le (lt_of_le_of_ne (hab b (List.mem_cons_self _ _)) hne) (hb.1 y hy)
    · obtain rfl : a = b := not_not.1 hne
      exact ih a (List.pairwise_cons.2 ⟨fun y hy => hab y (List.mem_cons_of_mem _ hy),
        (List.pairwise_cons.1 hal).2⟩)

theorem mem_destutter_ne (x : Nat) (l : List Nat) : x ∈ l.destutter (· ≠ ·) ↔ x ∈ l := by
  cases l with
  | nil => simp
  | cons a l => rw [List.destutter_cons', mem_destutter'_ne, List.mem_cons]

theorem mem_squishNeigh (n x : Nat) (l : List Nat) : x ∈ squishNeigh n l ↔ x ∈ l ∧ x ≠ n := by
  simp [squishNeigh, mem_destutter_ne]

theorem squishNeigh_sorted (n : Nat) (l : List Nat) : (squishNeigh n l).Pairwise (· < ·) := by
  have hle : l.mergeSort.Pairwise (· ≤ ·) := by
    simpa only [decide_eq_true_eq] using
      @List.sorted_mergeSort Nat (fun a b => decide (a ≤ b))
        (fun a b c hab hbc => by simp only [decide_eq_true_eq] at *; omega)
        (fun a b => by simp only [Bool.or_eq_true, decide_eq_true_eq]; omega) l
  refine List.Pairwise.sublist (List.filter_sublist _) ?_
  cases h : l.mergeSort with
  | nil => simp
  | cons a l' =>
    rw [List.destutter_cons']
    exact pairwise_destutter'_ne a l' (h ▸ hle)

end Squish

namespace BuildWorld

variable (w : BuildWorld)

@[simp] theorem update_ranks_self (pe : Nat) (f : BuildRank → BuildRank) :
    (w.update pe f).ranks pe = f (w.ranks pe) := by simp [update]

theorem update_ranks_ne {pe p : Nat} (f : BuildRank → BuildRank) (h : p ≠ pe) :
    (w.update pe f).ranks p = w.ranks p := by simp [update, h]

theorem update_update (pe : Nat) (f g : BuildRank → BuildRank) :
    (w.update pe f).update pe g = w.update pe (g ∘ f) := by
  simp [update]

theorem update_comm {p q : Nat} (h : p ≠ q) (f g : BuildRank → BuildRank) :
    (w.update p f).update q g = (w.update q g).update p f := by
  simp only [update, Function.update_noteq h.symm, Function.update_noteq h]
  exact congrArg _ (Function.update_comm h _ _ _)

theorem update_congr {pe : Nat} {f g : BuildRank → BuildRank} (h : f (w.ranks pe) = g (w.ranks pe)) :
    w.update pe f = w.update pe g := by
  simp [update, h]

end BuildWorld

open BuildWorld

theorem buildStep_act {c : BuildCfg} {w : BuildWorld} {pe : Nat} {op : BuildOp} {t : List BuildOp}
    (hpe : pe < c.vp.npes) (h : (w.ranks pe).rest = op :: t) (hop : op.isCollective = false) :
    buildStep c w (.act pe) = (op.apply c pe w).advance pe := by
  simp [buildStep, h, hpe, hop]

theorem buildRun_fill {c : BuildCfg} (pe q i v : Nat) (hpe : pe < c.vp.npes) (hq : pe ≠ q)
    (k : Nat) : ∀ (w : BuildWorld) (tail : List BuildOp),
      (w.ranks pe).rest = (List.replicate k [.fetchInc q i, .putNeigh q v]).flatten ++ tail →
      buildRun c w (List.replicate (2 * k) (.act pe)) =
        (w.update q fun r =>
          { r with
            offsets := Function.update r.offsets i (r.offsets i + k)
            neighs := fun j => if r.offsets i ≤ j ∧ j < r.offsets i + k then v else r.neighs j }).update
          pe fun r =>
            { r with
              rest := tail
              neighbor := if k = 0 then r.neighbor else (w.ranks q).offsets i + k - 1 } := by
  induction k with
  | zero =>
    intro w tail h
    simp only [List.replicate_zero, List.flatten_nil, List.nil_append] at h
    have hno : ∀ o j : Nat, ¬(o ≤ j ∧ j < o) := fun o j => by omega
    simp only [Nat.mul_zero, List.replicate_zero, buildRun, List.foldl_nil, Nat.add_zero,
      Function.update_eq_self, hno, if_false, ← h, if_true]
    ext p : 2
    by_cases hp : p = pe
    · subst hp
      simp [update, hq]
    · by_cases hpq : p = q
      · subst hpq
        simp [update, hp]
      · simp [update, hp, hpq]
  | succ k ih =>
    intro w tail h
    simp only [List.replicate_succ, List.flatten_cons, List.cons_append, List.nil_append] at h
    have h1 := buildStep_act hpe h rfl
    have hr1 : ((buildStep c w (.act pe)).ranks pe).rest =
        .putNeigh q v :: ((List.replicate k [.fetchInc q i, .putNeigh q v]).flatten ++ tail) := by
      simp [h1, BuildOp.apply, advance, update_ranks_ne _ _ hq, h]
    rw [show 2 * (k + 1) = 2 * k + 1 + 1 by omega, List.replicate_succ, List.replicate_succ, buildRun,
      List.foldl_cons, List.foldl_cons, buildStep_act hpe hr1 rfl, h1,
      show List.foldl (buildStep c) _ (List.replicate (2 * k) (.act pe)) = buildRun c _ _ from rfl,
      ih _ tail (by simp [BuildOp.apply, advance, update_ranks_ne _ _ hq, h])]
    clear ih hr1 h1
    simp only [BuildOp.apply, advance, update_ranks_self, update_ranks_ne _ _ hq,
      update_ranks_ne _ _ hq.symm, update_comm _ hq, update_update]
    congr 1
    · apply update_congr
      dsimp only [Function.comp_apply]
      congr 1
      · rw [Function.update_same, Function.update_idem, Nat.add_assoc, Nat.add_comm 1 k]
      · funext j
        rw [Function.update_same, Function.update_apply]
        split_ifs <;> first | rfl | omega
    · funext r
      dsimp only [Function.comp_apply]
      congr 1
      rw [Function.update_same, if_neg (Nat.succ_ne_zero k)]
      split_ifs <;> omega

section Fill

variable (vp : Partition) (symmetrize transpose : Bool)

theorem fillOps_append (xs ys : List (Nat × Nat)) :
    fillOps vp symmetrize transpose (xs ++ ys) =
      fillOps vp symmetrize transpose xs ++ fillOps vp symmetrize transpose ys := by
  induction xs with
  | nil => rfl
  | cons e xs ih =>
    obtain ⟨u, v⟩ := e
    simp only [List.cons_append, fillOps, List.append_eq, ih, List.append_assoc]

theorem fillOps_count_fetchInc (q i : Nat) : ∀ (k : Nat) (el : List (Nat × Nat)),
    (fillOps vp symmetrize transpose el).count (.fetchInc q i) =
      (countDegreesLoop vp symmetrize transpose k el).count (.inc q i)
  | _, [] => rfl
  | k, (u, v) :: es => by
    simp only [fillOps, countDegreesLoop, List.count_append, fillOps_count_fetchInc q i (k + 1) es]
    split_ifs <;> simp [List.count_cons]

theorem fillOps_replicate (u v k : Nat) :
    fillOps vp false false (List.replicate k (u, v)) =
      (List.replicate k [.fetchInc (vp.recv u) (vp.localPos u), .putNeigh (vp.recv u) v]).flatten := by
  induction k with
  | zero => rfl
  | succ k ih => simp [List.replicate_succ, fillOps, ih]

end Fill

def fanEdges : List (Nat × Nat) :=
  (1, 0) :: List.replicate 9999 (2, 0) ++ List.replicate 10000 (2, 0) ++ [(1, 2)]

/-- Three vertices on three ranks, one a rank, with the whole edge list on rank 0. -/
def fanBuild : BuildCfg :=
  ⟨⟨3, 3, by decide⟩, false, false, fun pe => if pe = 0 then fanEdges else []⟩

theorem fan_loop : countDegreesLoop fanBuild.vp false false 0 fanEdges =
    List.replicate 1 (.inc 1 0) ++ (List.replicate 9999 (.inc 2 0) ++ (.barrier ::
      (List.replicate 10000 (.inc 2 0) ++ [.barrier, .inc 1 0]))) := by
  have h1 : countDegreesLoop fanBuild.vp false false (0 + 1) (List.replicate 9999 (2, 0)) =
      List.replicate 9999 (.inc 2 0) ++ [.barrier] :=
    countDegreesLoop_replicate_flush _ 2 0 9998 1 (fun j hj => by omega) rfl
  have h2 : countDegreesLoop fanBuild.vp false false (0 + (9999 + 1)) (List.replicate 10000 (2, 0)) =
      List.replicate 10000 (.inc 2 0) ++ [.barrier] :=
    countDegreesLoop_replicate_flush _ 2 0 9999 10000 (fun j hj => by omega) rfl
  rw [fanEdges, countDegreesLoop_append, countDegreesLoop_append, countDegreesLoop_cons,
    if_neg (by decide), List.nil_append, h1, List.length_cons, List.length_replicate, h2,
    List.length_append, List.length_cons, List.length_replicate, List.length_replicate,
    countDegreesLoop_cons, if_neg (by decide), countDegreesLoop, List.append_nil,
    List.cons_append, List.cons_append, List.append_assoc, List.append_assoc, List.append_assoc]
  rfl

/-- Rank 0 counts past its periodic barriers while ranks 1 and 2 wait at the end of
`CountDegrees`, so every later collective pairs rank 0's call with their next one. -/
def fanMid : List BuildEvent :=
  [.sync, .act 1, .act 2, .act 0, .sync, .act 1, .act 2, .sync, .act 0, .act 1, .act 2, .sync,
    .act 0, .sync, .act 0, .act 1, .act 1, .act 1, .act 2, .act 2, .act 2, .sync, .act 1, .act 2,
    .sync, .act 0, .act 0, .act 0, .sync, .act 0, .sync, .act 1, .act 2, .sync, .sync, .act 0,
    .sync, .act 0, .act 0]

/-- The whole run, to the barrier after the copy loop. -/
def fanEvents : List BuildEvent :=
  [.sync, .sync] ++ List.replicate 1 (.act 0) ++ List.replicate 9999 (.act 0) ++ [.sync] ++
    List.replicate 10000 (.act 0) ++ fanMid ++ List.replicate (2 * 9999) (.act 0) ++
    List.replicate (2 * 10000) (.act 0) ++ [.act 0, .act 0, .sync]

def fanRun : BuildWorld := buildRun fanBuild (buildInit fanBuild) fanEvents

set_option maxRecDepth 20000 in
theorem fanRun_facts : (fanRun.ranks 1).rest = [] ∧ (fanRun.ranks 2).rest = [] ∧
    (fanRun.ranks 0).rest = [.alloc, .alloc] ∧ (fanRun.ranks 1).degrees 0 = 2 ∧
    (fanRun.ranks 1).index 0 = 0 ∧ (fanRun.ranks 1).index 1 = 1 ∧ (fanRun.ranks 1).offsets 0 = 2 ∧
    (fanRun.ranks 1).neighs 1 = 2 ∧ outNeighOf fanBuild fanRun 1 = [0] := by
  have h0 : (fanBuild.ops 0).tail.tail = List.replicate 1 (.inc 1 0) ++
      (List.replicate 9999 (.inc 2 0) ++ (.barrier :: (List.replicate 10000 (.inc 2 0) ++
        (.barrier :: .inc 1 0 :: .barrier :: csrTail fanBuild.vp false false fanEdges)))) := by
    show (makeCsrOps fanBuild.vp false false fanEdges).tail.tail = _
    rw [makeCsrOps, countDegreesOps, fan_loop, List.cons_append, List.cons_append, List.cons_append, List.cons_append, List.tail_cons,
      List.tail_cons, List.append_assoc, List.append_assoc, List.append_assoc, List.cons_append,
      List.append_assoc]
    rfl
  have hs : buildRun fanBuild (buildInit fanBuild) [.sync, .sync] = ⟨fun pe =>
      if pe < 3 then { (buildInit fanBuild).ranks pe with rest := (fanBuild.ops pe).tail.tail }
      else (buildInit fanBuild).ranks pe⟩ := by
    have hn : fanBuild.vp.npes = 3 := rfl
    have hc : ∀ pe < 3, ((buildInit fanBuild).ranks pe).rest.head?.map BuildOp.isCollective =
        some true := by decide
    simp only [buildRun, List.foldl, buildStep, hn, if_pos hc]
    rw [if_pos]
    · congr 1
      funext pe
      split_ifs <;> rfl
    · intro pe hpe
      simp only [hpe, if_true]
      exact hc pe hpe
  rw [fanRun, fanEvents, buildRun_append, buildRun_append, buildRun_append, buildRun_append,
    buildRun_append, buildRun_append, buildRun_append, buildRun_append, hs,
    buildRun_incs 0 1 0 (by decide) 1 _ (List.replicate 9999 (BuildOp.inc 2 0) ++ (BuildOp.barrier ::
      (List.replicate 10000 (BuildOp.inc 2 0) ++ (BuildOp.barrier :: BuildOp.inc 1 0 :: BuildOp.barrier ::
        csrTail fanBuild.vp false false fanEdges)))) h0,
    buildRun_incs 0 2 0 (by decide) 9999 _ (BuildOp.barrier :: (List.replicate 10000 (BuildOp.inc 2 0) ++
      (BuildOp.barrier :: BuildOp.inc 1 0 :: BuildOp.barrier :: csrTail fanBuild.vp false false fanEdges))) rfl,
    buildRun_incs 0 2 0 (by decide) 10000 _
      (BuildOp.barrier :: BuildOp.inc 1 0 :: BuildOp.barrier :: csrTail fanBuild.vp false false fanEdges) rfl,
    buildRun_fill 0 2 0 0 (by decide) (by decide) 9999 _
      ((List.replicate 10000 [BuildOp.fetchInc 2 0, BuildOp.putNeigh 2 0]).flatten ++
        [BuildOp.fetchInc 1 0, BuildOp.putNeigh 1 2, BuildOp.barrier, BuildOp.alloc, BuildOp.alloc]) ?h4,
    buildRun_fill 0 2 0 0 (by decide) (by decide) 10000 _
      [BuildOp.fetchInc 1 0, BuildOp.putNeigh 1 2, BuildOp.barrier, BuildOp.alloc, BuildOp.alloc] rfl]
  · decide
  · have hf : fillOps fanBuild.vp false false
        (List.replicate 9999 (2, 0) ++ List.replicate 10000 (2, 0) ++ [(1, 2)]) ++
          [BuildOp.barrier, BuildOp.alloc, BuildOp.alloc] =
        (List.replicate 9999 [BuildOp.fetchInc 2 0, BuildOp.putNeigh 2 0]).flatten ++
          ((List.replicate 10000 [BuildOp.fetchInc 2 0, BuildOp.putNeigh 2 0]).flatten ++
            [BuildOp.fetchInc 1 0, BuildOp.putNeigh 1 2, BuildOp.barrier, BuildOp.alloc, BuildOp.alloc]) := by
      rw [fillOps_append, fillOps_append, fillOps_replicate, fillOps_replicate, List.append_assoc,
        List.append_assoc]
      rfl
    exact Eq.trans rfl hf

theorem fan_drops_edge :
    (1, 2) ∈ fanEdges ∧ (fanRun.ranks 1).rest = [] ∧ (fanRun.ranks 2).rest = [] ∧
      (fanRun.ranks 0).rest = [.alloc, .alloc] ∧ (fanRun.ranks 1).degrees 0 = 2 ∧
      (fanRun.ranks 1).index 1 = 1 ∧ (fanRun.ranks 1).neighs 1 = 2 ∧
      squishNeigh 1 (outNeighOf fanBuild fanRun 1) = [0] := by
  obtain ⟨h1, h2, h3, h4, -, h5, -, h6, h7⟩ := fanRun_facts
  exact ⟨List.mem_append_right _ (List.mem_singleton_self _), h1, h2, h3, h4, h5, h6,
    by simp [h7, squishNeigh]⟩

/-- Vertex 1's cursor moves twice over a segment of one cell: the second `fetch_inc` claims past it. -/
theorem fan_claims_past_segment :
    (fanRun.ranks 1).degrees 0 = 2 ∧ (fanRun.ranks 1).offsets 0 - (fanRun.ranks 1).index 0 = 2 ∧
      (fanRun.ranks 1).index 1 - (fanRun.ranks 1).index 0 = 1 ∧ (fanRun.ranks 1).neighs 1 = 2 := by
  obtain ⟨-, -, -, h4, h5, h6, h7, h8, -⟩ := fanRun_facts
  exact ⟨h4, by rw [h7, h5], by rw [h6, h5], h8⟩

end DMM
