import DmmGapbs.Proofs.MakeCsr

/-! Where `MakeCSR`'s copy loop writes, when every rank issues as many periodic barriers in
`CountDegrees` as the others and every endpoint is a vertex. Each rank's `local_max` is where its
part of the CSR ends, every rank has put its `local_max` into a rank's `max_neighbors` by the time
that rank reads it, so every rank's `maxn` is the largest of them; and under every interleaving,
a rank about to put holds a cell of the target vertex's list `[index[i], index[i + 1])`, which
ends within the `maxn` cells the target allocated `neighs` with. The invariant `Sized` is stated
over `ds`, what each rank has issued, beside `Staged` and `Filled`. -/

namespace DMM

theorem le_foldl_max_self : ∀ (l : List Nat) (a : Nat), a ≤ l.foldl max a
  | [], _ => le_rfl
  | y :: l, a => (le_max_left a y).trans (le_foldl_max_self l _)

theorem le_foldl_max : ∀ (l : List Nat) (a : Nat) {x : Nat}, x ∈ l → x ≤ l.foldl max a
  | [], _, _, h => absurd h (List.not_mem_nil _)
  | y :: l, a, x, h => by
    rw [List.foldl_cons]
    rcases List.mem_cons.1 h with rfl | h
    · exact (le_max_right a x).trans (le_foldl_max_self l _)
    · exact le_foldl_max l _ h

theorem prefixSums_eq_of_zero {d : Nat → Nat} {a b : Nat} (hab : a ≤ b)
    (h : ∀ j, a ≤ j → j < b → d j = 0) : prefixSums d b = prefixSums d a := by
  induction b, hab using Nat.le_induction with
  | base => rfl
  | succ b hab ih =>
    rw [prefixSums_succ, h b hab (Nat.lt_succ_self b), Nat.add_zero,
      ih fun j h1 h2 => h j h1 (Nat.lt_succ_of_lt h2)]

theorem lt_width_of_inc_mem (vp : Partition) (symmetrize transpose : Bool) :
    ∀ {k : Nat} {el : List (Nat × Nat)}, (∀ e ∈ el, e.1 < vp.n ∧ e.2 < vp.n) →
      ∀ {q i : Nat}, .inc q i ∈ countDegreesLoop vp symmetrize transpose k el → i < vp.width q
  | _, [], _, _, _, h => absurd h (List.not_mem_nil _)
  | k, (u, v) :: el, hE, q, i, h => by
    have he := hE (u, v) (List.mem_cons_self _ _)
    simp only [countDegreesLoop, List.mem_append] at h
    rcases h with ((h | h) | h) | h
    · split_ifs at h <;> simp only [List.mem_singleton, List.not_mem_nil, BuildOp.inc.injEq] at h
      obtain ⟨rfl, rfl⟩ := h
      exact vp.localPos_lt_width he.1
    · split_ifs at h <;> simp only [List.mem_singleton, List.not_mem_nil, BuildOp.inc.injEq] at h
      obtain ⟨rfl, rfl⟩ := h
      exact vp.localPos_lt_width he.2
    · split_ifs at h <;> simp at h
    · exact lt_width_of_inc_mem vp symmetrize transpose (fun e he' => hE e (List.mem_cons_of_mem _ he')) h

/-! ### What one operation writes -/

section Apply

variable {c : BuildCfg} (w : BuildWorld) (pe q : Nat)

theorem localMax_apply (op : BuildOp) : ((op.apply c pe w).ranks q).localMax =
    if op = .readLocalMax ∧ q = pe then (w.ranks pe).offsets (c.vp.stop pe - c.vp.start pe)
    else (w.ranks q).localMax := by
  cases op
  case readLocalMax => by_cases h : q = pe <;> simp [BuildOp.apply, update_ranks_apply, h]
  all_goals simp only [BuildOp.apply, update_ranks_apply, apply_ite BuildRank.localMax, ite_eq_right_iff,
    reduceCtorEq, false_and, if_false]
  all_goals first | (intro h; subst h; rfl) | (split_ifs <;> subst_vars <;> rfl)

theorem maxNeighbors_apply (op : BuildOp) (p : Nat) : ((op.apply c pe w).ranks q).maxNeighbors p =
    if op = .putMax q ∧ p = pe then (w.ranks pe).localMax else (w.ranks q).maxNeighbors p := by
  cases op
  case putMax q' =>
    simp only [BuildOp.apply, update_ranks_apply, BuildOp.putMax.injEq]
    by_cases hq : q = q'
    · subst hq; by_cases hp : p = pe <;> simp [hp, Function.update_apply]
    · simp [hq, Ne.symm hq]
  all_goals simp only [BuildOp.apply, update_ranks_apply, apply_ite BuildRank.maxNeighbors, ite_apply,
    ite_eq_right_iff, reduceCtorEq, false_and, if_false]
  all_goals first | (intro h; subst h; rfl) | (split_ifs <;> subst_vars <;> rfl)

theorem maxn_apply (op : BuildOp) : ((op.apply c pe w).ranks q).maxn =
    if op = .readMax ∧ q = pe then some (((List.range c.vp.npes).map (w.ranks pe).maxNeighbors).foldl max 0)
    else (w.ranks q).maxn := by
  cases op
  case readMax => by_cases h : q = pe <;> simp [BuildOp.apply, update_ranks_apply, h]
  all_goals simp only [BuildOp.apply, update_ranks_apply, apply_ite BuildRank.maxn, ite_eq_right_iff,
    reduceCtorEq, false_and, if_false]
  all_goals first | (intro h; subst h; rfl) | (split_ifs <;> subst_vars <;> rfl)

end Apply

namespace BuildCfg

variable (c : BuildCfg)

/-- `*local_max` of rank `q`: where its part of `neighs` ends. -/
def localLen (q : Nat) : Nat := c.base q (c.vp.stop q - c.vp.start q)

/-- The largest `local_max` of all ranks: what `maxn` is meant to read. -/
def maxLen : Nat := ((List.range c.vp.npes).map c.localLen).foldl max 0

theorem ops_eq_putMax (p : Nat) : c.ops p =
    (countDegreesOps c.vp c.symmetrize c.transpose (c.el p) ++
      [.barrier, .blockSums, .alloc, .prefixFill, .alloc, .readLocalMax, .alloc, .alloc] ++
      (List.range c.vp.npes).map .putMax) ++
    .barrier :: ([.readMax, .barrier, .alloc, .barrier, .genIndex, .barrier] ++
      fillOps c.vp c.symmetrize c.transpose (c.el p) ++ [.barrier, .alloc, .alloc]) := by
  simp [ops, makeCsrOps, csrTail]

variable {c}

theorem deg_eq_zero (hE : c.EdgesValid) {q i : Nat} (hi : c.vp.width q ≤ i) : c.deg q i = 0 :=
  Finset.sum_eq_zero fun p hp => by
    rw [count_inc_ops]
    exact List.count_eq_zero.2 fun h =>
      absurd (lt_width_of_inc_mem _ _ _ (hE p (Finset.mem_range.1 hp)) h) (not_lt.2 hi)

theorem base_maxWidth (hE : c.EdgesValid) (q : Nat) : c.base q c.vp.maxWidth = c.localLen q := by
  have hw := c.vp.width_le_maxWidth q
  rw [base, localLen, base, min_self, min_eq_left (show c.vp.stop q - c.vp.start q ≤ _ from hw)]
  exact prefixSums_eq_of_zero hw fun j hj _ => deg_eq_zero hE hj

theorem localLen_le_maxLen {q : Nat} (hq : q < c.vp.npes) : c.localLen q ≤ c.maxLen :=
  le_foldl_max _ _ (List.mem_map_of_mem _ (List.mem_range.2 hq))

/-! ### The invariant -/

/-- What the ranks hold of `local_max`, `max_neighbors` and `maxn`, given what they have issued. -/
structure Sized (w : BuildWorld) (ds : Nat → List BuildOp) : Prop where
  localMax : ∀ q < c.vp.npes, .readLocalMax ∈ ds q → (w.ranks q).localMax = c.localLen q
  maxNeighbors : ∀ q < c.vp.npes, ∀ p < c.vp.npes, .putMax q ∈ ds p →
    (w.ranks q).maxNeighbors p = c.localLen p
  maxn : ∀ q < c.vp.npes, .readMax ∈ ds q → (w.ranks q).maxn = some c.maxLen

variable (c) in
theorem sized_init : c.Sized (buildInit c) fun _ => [] where
  localMax _ _ h := absurd h (List.not_mem_nil _)
  maxNeighbors _ _ _ _ h := absurd h (List.not_mem_nil _)
  maxn _ _ h := absurd h (List.not_mem_nil _)

section Act

variable {w : BuildWorld} {ds : Nat → List BuildOp} (hA : c.Aligned) (hS : c.Staged w ds)
  (hF : c.Filled w ds) (hZ : c.Sized w ds) {pe : Nat} {op : BuildOp} {t : List BuildOp}
  (hpe : pe < c.vp.npes) (hr : (w.ranks pe).rest = op :: t)

include hA hS hpe hr in
theorem Staged.putMax_mem_of_readMax (hop : op = .readMax) {p : Nat} (hp : p < c.vp.npes) :
    .putMax pe ∈ ds p := by
  subst hop
  have hK : ∀ p < c.vp.npes, collCount (countDegreesOps c.vp c.symmetrize c.transpose (c.el p) ++
      [.barrier, .blockSums, .alloc, .prefixFill, .alloc, .readLocalMax, .alloc, .alloc] ++
      (List.range c.vp.npes).map .putMax) = collCount (countDegreesOps c.vp c.symmetrize c.transpose (c.el 0) ++
      [.barrier, .blockSums, .alloc, .prefixFill, .alloc, .readLocalMax, .alloc, .alloc] ++
      (List.range c.vp.npes).map .putMax) := fun p hp => by
    rw [collCount_append, collCount_append, collCount_append, collCount_append, collCount_countDegreesOps,
      collCount_countDegreesOps, hA p hp]
  have hx : countDegreesOps c.vp c.symmetrize c.transpose (c.el pe) ++
      [.barrier, .blockSums, .alloc, .prefixFill, .alloc, .readLocalMax, .alloc, .alloc] ++
      (List.range c.vp.npes).map .putMax ++ [.barrier] <+: ds pe :=
    hS.prefix_of_head hpe hr ⟨[.readMax, .barrier, .alloc, .barrier, .genIndex, .barrier] ++
      fillOps c.vp c.symmetrize c.transpose (c.el pe) ++ [.barrier, .alloc, .alloc], by
        rw [c.ops_eq_putMax pe, List.append_assoc _ [_], List.singleton_append]⟩
      (by simp [not_mem_countDegreesOps (show BuildOp.readMax.isCollective = false from rfl)])
  have hx' := hS.cross (show BuildOp.barrier.isCollective = true from rfl) (fun p _ => c.ops_eq_putMax p)
    hK hpe hp hx
  exact hx'.subset (by simp [hpe])

include hA hS hF hZ hpe hr in
theorem Sized.act : c.Sized ((op.apply c pe w).advance pe) (Function.update ds pe (ds pe ++ [op])) where
  localMax q hq hm := by
    simp only [advance_ranks, localMax_apply]
    split_ifs with h
    · obtain ⟨rfl, rfl⟩ : op = _ ∧ pe = q := ⟨h.1, h.2.symm⟩
      have hx := hS.prefix_of_head_stage hpe hr (not_mem_countDegreesOps rfl (by simp))
        [.barrier, .blockSums, .alloc, .prefixFill] (by simp) (by simp)
      rw [hF.offsets pe hpe, if_pos (hx.subset (by simp)),
        hS.issued_fetchInc_eq_zero hA hpe (hS.not_fill_of_head hpe hr rfl), Nat.add_zero]
      rfl
    · rw [mem_update] at hm
      exact hZ.localMax q hq (hm.resolve_right fun ⟨h1, h2⟩ => h ⟨h2.symm, h1⟩)
  maxNeighbors q hq p hp hm := by
    simp only [advance_ranks, maxNeighbors_apply]
    split_ifs with h
    · obtain ⟨rfl, rfl⟩ := h
      have hx := hS.prefix_of_head_stage hpe hr (not_mem_countDegreesOps rfl (by simp))
        [.barrier, .blockSums, .alloc, .prefixFill, .alloc, .readLocalMax] (by simp) (by simp)
      exact hZ.localMax _ hpe (hx.subset (by simp))
    · rw [mem_update] at hm
      exact hZ.maxNeighbors q hq p hp (hm.resolve_right fun ⟨h1, h2⟩ => h ⟨h2.symm, h1⟩)
  maxn q hq hm := by
    simp only [advance_ranks, maxn_apply]
    split_ifs with h
    · obtain ⟨rfl, rfl⟩ : op = _ ∧ pe = q := ⟨h.1, h.2.symm⟩
      rw [maxLen, List.map_congr_left fun p hp => hZ.maxNeighbors pe hpe p (List.mem_range.1 hp)
        (hS.putMax_mem_of_readMax hA hpe hr rfl (List.mem_range.1 hp))]
    · rw [mem_update] at hm
      exact hZ.maxn q hq (hm.resolve_right fun ⟨h1, h2⟩ => h ⟨h2.symm, h1⟩)

end Act

theorem Sized.sync {w : BuildWorld} {ds : Nat → List BuildOp} (hall : c.AllAtCollective w)
    (hZ : c.Sized w ds) : c.Sized (c.syncWorld w) (c.syncIssued w ds) where
  localMax q hq hm := by
    simp only [syncWorld_ranks]; exact hZ.localMax q hq ((mem_syncIssued hall .readLocalMax rfl).1 hm)
  maxNeighbors q hq p hp hm := by
    simp only [syncWorld_ranks]; exact hZ.maxNeighbors q hq p hp ((mem_syncIssued hall (.putMax q) rfl).1 hm)
  maxn q hq hm := by
    simp only [syncWorld_ranks]; exact hZ.maxn q hq ((mem_syncIssued hall .readMax rfl).1 hm)

theorem Sized.run (hA : c.Aligned) (hE : c.EdgesValid) {w : BuildWorld} {ds : Nat → List BuildOp}
    (hS : c.Staged w ds) (hF : c.Filled w ds) (hZ : c.Sized w ds) :
    ∀ evs, ∃ ds', c.Staged (buildRun c w evs) ds' ∧ c.Filled (buildRun c w evs) ds' ∧
      c.Sized (buildRun c w evs) ds' := by
  intro evs
  induction evs generalizing w ds with
  | nil => exact ⟨ds, hS, hF, hZ⟩
  | cons e evs ih =>
    rw [buildRun, List.foldl_cons]
    rcases buildStep_cases w e with he | ⟨pe, op, t, hpe, hr, hop, he⟩ | ⟨hall, he⟩ <;> rw [he]
    · exact ih hS hF hZ
    · exact ih (hS.act hpe hr hop) (hF.act hA hE hS hpe hr) (hZ.act hA hS hF hpe hr)
    · exact ih (hS.sync hall) (hF.sync hall hS) (hZ.sync hall)

/-- Under every schedule, the put after a `fetch_inc` on vertex `i`'s cursor of rank `q` writes
inside `i`'s list, which ends within the `maxn` cells `q` allocated. -/
theorem makeCsr_puts_in_bounds (hA : c.Aligned) (hE : c.EdgesValid) (evs : List BuildEvent)
    {pe q i v : Nat} {pre t : List BuildOp} (hpe : pe < c.vp.npes)
    (hops : c.ops pe = pre ++ .fetchInc q i :: .putNeigh q v :: t)
    (hr : ((buildRun c (buildInit c) evs).ranks pe).rest = .putNeigh q v :: t) :
    ∃ m, ((buildRun c (buildInit c) evs).ranks q).maxn = some m ∧
      ((buildRun c (buildInit c) evs).ranks q).index i ≤ ((buildRun c (buildInit c) evs).ranks pe).neighbor ∧
      ((buildRun c (buildInit c) evs).ranks pe).neighbor < ((buildRun c (buildInit c) evs).ranks q).index (i + 1) ∧
      ((buildRun c (buildInit c) evs).ranks q).index (i + 1) ≤ m := by
  obtain ⟨ds, hS, hF, hZ⟩ := Sized.run hA hE staged_init c.filled_init c.sized_init evs
  have hsplit : ds pe ++ .putNeigh q v :: t = (pre ++ [.fetchInc q i]) ++ .putNeigh q v :: t := by
    rw [List.append_assoc, List.singleton_append, ← hops, hS.split pe hpe, hr]
  have hds : ds pe = pre ++ [.fetchInc q i] := List.append_cancel_right hsplit
  have hl : (ds pe).getLast? = some (.fetchInc q i) := by rw [hds, List.getLast?_append]; rfl
  obtain ⟨hi, h1, h2⟩ := hS.slot_bounds hE (hF.slot pe hpe q i hl)
  have hm : BuildOp.fetchInc q i ∈ ds pe := List.mem_of_mem_getLast? hl
  have hq := (fetchInc_mem_ops (hE pe hpe) (by rw [hS.split pe hpe]; exact List.mem_append_left _ hm)).1
  have hfill := hS.fill_of_fetchInc hA hpe hq hm
  have hidx := hF.index q hq (hfill.subset (by simp [preFill]))
  refine ⟨c.maxLen, hZ.maxn q hq (hfill.subset (by simp [preFill])), by rwa [hidx], by rwa [hidx], ?_⟩
  rw [hidx]
  calc c.base q (i + 1) ≤ c.base q c.vp.maxWidth := c.base_mono q hi
    _ = c.localLen q := base_maxWidth hE q
    _ ≤ c.maxLen := localLen_le_maxLen hq

end BuildCfg

/-- `edgeBuild`'s first forty-three events: rank 0 has claimed its cell and is about to put. -/
def edgeToPut : List BuildEvent := edgeRounds.take 43

set_option maxRecDepth 20000 in
theorem makeCsr_puts_in_bounds_edgeToPut : edgeBuild.Aligned ∧ edgeBuild.EdgesValid ∧
    0 < edgeBuild.vp.npes ∧
    edgeBuild.ops 0 = (edgeBuild.ops 0).take ((edgeBuild.ops 0).length - 5) ++
      .fetchInc 0 0 :: .putNeigh 0 1 :: [.barrier, .alloc, .alloc] ∧
    ((buildRun edgeBuild (buildInit edgeBuild) edgeToPut).ranks 0).rest =
      [.putNeigh 0 1, .barrier, .alloc, .alloc] ∧
    ∃ m, ((buildRun edgeBuild (buildInit edgeBuild) edgeToPut).ranks 0).maxn = some m ∧
      ((buildRun edgeBuild (buildInit edgeBuild) edgeToPut).ranks 0).index 0 ≤
        ((buildRun edgeBuild (buildInit edgeBuild) edgeToPut).ranks 0).neighbor ∧
      ((buildRun edgeBuild (buildInit edgeBuild) edgeToPut).ranks 0).neighbor <
        ((buildRun edgeBuild (buildInit edgeBuild) edgeToPut).ranks 0).index (0 + 1) ∧
      ((buildRun edgeBuild (buildInit edgeBuild) edgeToPut).ranks 0).index (0 + 1) ≤ m := by
  have hops : edgeBuild.ops 0 = (edgeBuild.ops 0).take ((edgeBuild.ops 0).length - 5) ++
      .fetchInc 0 0 :: .putNeigh 0 1 :: [.barrier, .alloc, .alloc] := by decide
  have hr : ((buildRun edgeBuild (buildInit edgeBuild) edgeToPut).ranks 0).rest =
      [.putNeigh 0 1, .barrier, .alloc, .alloc] := by decide
  exact ⟨by decide, by decide, by decide, hops, hr,
    BuildCfg.makeCsr_puts_in_bounds (by decide) (by decide) edgeToPut (by decide) hops hr⟩

namespace BuildCfg

variable {c : BuildCfg}

/-- Under every schedule, a rank that has read `maxn` holds the largest `local_max`. -/
theorem makeCsr_maxn_eq (hA : c.Aligned) (hE : c.EdgesValid) (evs : List BuildEvent) {q : Nat}
    (hq : q < c.vp.npes) (hread : .readMax ∉ ((buildRun c (buildInit c) evs).ranks q).rest) :
    ((buildRun c (buildInit c) evs).ranks q).maxn = some c.maxLen := by
  obtain ⟨ds, hS, -, hZ⟩ := Sized.run hA hE staged_init c.filled_init c.sized_init evs
  have hops : BuildOp.readMax ∈ c.ops q := List.count_pos_iff.1 (by
    rw [c.count_ops_eq_one (show BuildOp.readMax.isStage = true from rfl)]; exact Nat.one_pos)
  rw [hS.split q hq] at hops
  exact hZ.maxn q hq ((List.mem_append.1 hops).resolve_right hread)

end BuildCfg

set_option maxRecDepth 20000 in
theorem makeCsr_maxn_eq_edgeBuild : edgeBuild.Aligned ∧ edgeBuild.EdgesValid ∧ 0 < edgeBuild.vp.npes ∧
    .readMax ∉ ((buildRun edgeBuild (buildInit edgeBuild) edgeRounds).ranks 0).rest ∧
    ((buildRun edgeBuild (buildInit edgeBuild) edgeRounds).ranks 0).maxn = some edgeBuild.maxLen := by
  have hread : BuildOp.readMax ∉ ((buildRun edgeBuild (buildInit edgeBuild) edgeRounds).ranks 0).rest := by
    decide
  exact ⟨by decide, by decide, by decide, hread,
    BuildCfg.makeCsr_maxn_eq (by decide) (by decide) edgeRounds (by decide) hread⟩

end DMM
