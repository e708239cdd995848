import DmmGapbs.Proofs.BuilderStages

/-! What `MakeCSR` stores when every rank issues as many periodic barriers in `CountDegrees` as
the others. Under every interleaving of the ranks' increments, `fetch_inc`s and puts, each
vertex's cells `[index[i], index[i + 1])` end up holding exactly the endpoints the edge list files
under it, in some order, so `SquishCSR` makes of them the strictly increasing list of its
neighbours. The invariant `Filled` is stated over `ds`, what each rank has issued: `degrees` counts
the increments issued, `offsets` the `fetch_inc`s past the prefix sums, and the claimed cells of a
cursor that are not waiting for their put hold the neighbours the completed pairs put. -/

namespace DMM

namespace BuildOp

def isPut : BuildOp → Bool
  | .putNeigh .. => true
  | _ => false

def isFill : BuildOp → Bool
  | .fetchInc .. | .putNeigh .. => true
  | _ => false

/-- The calls each rank makes once between `CountDegrees` and the copy loop. -/
def isStage : BuildOp → Bool
  | .blockSums | .prefixFill | .readLocalMax | .readMax | .genIndex => true
  | _ => false

theorem isPut_eq_false_of_isFill {op : BuildOp} (h : op.isFill = false) : op.isPut = false := by
  cases op <;> first | rfl | cases h

theorem isFill_eq_false_of_isCollective {op : BuildOp} (h : op.isCollective = true) :
    op.isFill = false := by
  cases op <;> first | rfl | cases h

theorem eq_putNeigh_of_isPut {op : BuildOp} (h : op.isPut = true) : ∃ q v, op = .putNeigh q v := by
  cases op <;> first | exact ⟨_, _, rfl⟩ | cases h

end BuildOp

/-! ### The lists the ranks issue -/

/-- The copy loop's pairs: owner, local index and the endpoint put there. -/
def fillTriples (vp : Partition) (symmetrize transpose : Bool) :
    List (Nat × Nat) → List (Nat × Nat × Nat)
  | [] => []
  | (u, v) :: es =>
    (if symmetrize || !transpose then [(vp.recv u, vp.localPos u, v)] else []) ++
    (if symmetrize || transpose then [(vp.recv v, vp.localPos v, u)] else []) ++
      fillTriples vp symmetrize transpose es

def pairOps (x : Nat × Nat × Nat) : List BuildOp := [.fetchInc x.1 x.2.1, .putNeigh x.1 x.2.2]

def selPut (q i : Nat) (x : Nat × Nat × Nat) : Option Nat := if x.1 = q ∧ x.2.1 = i then some x.2.2 else none

/-- The endpoints a CSR pass should file under `x` for the edge `(u, v)`. -/
def csrEnds (symmetrize transpose : Bool) (x : Nat) (e : Nat × Nat) : List Nat :=
  (if (symmetrize || !transpose) && e.1 = x then [e.2] else []) ++
    (if (symmetrize || transpose) && e.2 = x then [e.1] else [])

/-- The neighbours the built graph should list for `x`, from every rank's part of the edge list. -/
def BuildCfg.neighList (c : BuildCfg) (x : Nat) : List Nat :=
  (List.range c.vp.npes).flatMap fun p => (c.el p).flatMap (csrEnds c.symmetrize c.transpose x)

def BuildCfg.allEdges (c : BuildCfg) : List (Nat × Nat) := (List.range c.vp.npes).flatMap c.el

theorem BuildCfg.neighList_eq_flatMap (c : BuildCfg) (x : Nat) :
    c.neighList x = c.allEdges.flatMap (csrEnds c.symmetrize c.transpose x) := by
  rw [neighList, allEdges, List.flatMap_assoc]

section Lists

variable (vp : Partition) (symmetrize transpose : Bool)

theorem fillOps_eq_flatMap (el : List (Nat × Nat)) :
    fillOps vp symmetrize transpose el = (fillTriples vp symmetrize transpose el).flatMap pairOps := by
  induction el with
  | nil => rfl
  | cons e el ih =>
    obtain ⟨u, v⟩ := e
    simp only [fillOps, fillTriples, ih, List.flatMap_append]
    split_ifs <;> simp [pairOps]

theorem filterMap_fillTriples (x : Nat) (el : List (Nat × Nat)) :
    (fillTriples vp symmetrize transpose el).filterMap (selPut (vp.recv x) (vp.localPos x)) =
      el.flatMap (csrEnds symmetrize transpose x) := by
  have hone : ∀ (b : Bool) (u v : Nat),
      (if b then [(vp.recv u, vp.localPos u, v)] else []).filterMap (selPut (vp.recv x) (vp.localPos x)) =
        if (b && decide (u = x)) = true then [v] else [] := fun b u v => by
    by_cases hu : u = x
    · cases b <;> simp [selPut, hu]
    · have : ¬(vp.recv u = vp.recv x ∧ vp.localPos u = vp.localPos x) := fun h =>
        hu (vp.addr_injective h.1 h.2)
      cases b <;> simp [selPut, hu, this]
  induction el with
  | nil => rfl
  | cons e el ih =>
    obtain ⟨u, v⟩ := e
    simp only [fillTriples, List.filterMap_append, ih, List.flatMap_cons, csrEnds, hone]

theorem mem_countDegreesLoop {k : Nat} {es : List (Nat × Nat)} {op : BuildOp}
    (h : op ∈ countDegreesLoop vp symmetrize transpose k es) : op = .barrier ∨ ∃ q i, op = .inc q i := by
  induction es generalizing k with
  | nil => cases h
  | cons e es ih =>
    obtain ⟨u, v⟩ := e
    simp only [countDegreesLoop, List.mem_append] at h
    rcases h with ((h | h) | h) | h
    · split_ifs at h <;> simp only [List.mem_singleton, List.not_mem_nil] at h; exact .inr ⟨_, _, h⟩
    · split_ifs at h <;> simp only [List.mem_singleton, List.not_mem_nil] at h; exact .inr ⟨_, _, h⟩
    · split_ifs at h <;> simp only [List.mem_singleton, List.not_mem_nil] at h; exact .inl h
    · exact ih h

theorem isFill_preFill (el : List (Nat × Nat)) :
    ∀ op ∈ preFill vp symmetrize transpose el ++ [.barrier], op.isFill = false := by
  have hcd : ∀ op ∈ countDegreesLoop vp symmetrize transpose 0 el, op.isFill = false := fun op h => by
    rcases mem_countDegreesLoop vp symmetrize transpose h with rfl | ⟨q, i, rfl⟩ <;> rfl
  simp only [preFill, countDegreesOps, List.forall_mem_append, List.forall_mem_cons,
    List.forall_mem_map, List.forall_mem_singleton]
  exact ⟨⟨⟨⟨⟨⟨rfl, rfl, hcd⟩, by decide⟩, by decide⟩, fun _ _ => rfl⟩, by decide⟩, by decide⟩

theorem count_fillOps_eq_zero {op : BuildOp} (hop : op.isFill = false) (el : List (Nat × Nat)) :
    (fillOps vp symmetrize transpose el).count op = 0 := by
  rw [fillOps_eq_flatMap, List.count_eq_zero]
  simp only [List.mem_flatMap, pairOps, List.mem_cons, List.mem_singleton, not_exists, not_and]
  rintro x - (rfl | rfl | h) <;> simp_all [BuildOp.isFill]

end Lists

/-! ### The pairs of the copy loop -/

section Pairs

theorem pairs_shape (Z : List BuildOp) (hZ : ∀ op ∈ Z, op.isFill = false) {a : BuildOp} {r : List BuildOp} :
    ∀ (P : List (Nat × Nat × Nat)) (d : List BuildOp), d ++ a :: r = P.flatMap pairOps ++ Z →
      (∃ q i, d.getLast? = some (.fetchInc q i)) ∨ a.isPut →
      ∃ q i v, d.getLast? = some (.fetchInc q i) ∧ a = .putNeigh q v ∧
        P[d.countP BuildOp.isPut]? = some (q, i, v)
  | [], d, h, hp => by
    exfalso
    have ha : a ∈ Z := by rw [List.flatMap_nil, List.nil_append] at h; rw [← h]; simp
    rcases hp with ⟨q, i, hl⟩ | hp
    · have hm : BuildOp.fetchInc q i ∈ Z := by
        rw [List.flatMap_nil, List.nil_append] at h
        rw [← h]; exact List.mem_append_left _ (List.mem_of_mem_getLast? hl)
      exact absurd (hZ _ hm) (by simp [BuildOp.isFill])
    · rw [BuildOp.isPut_eq_false_of_isFill (hZ a ha)] at hp; cases hp
  | (q, i, v) :: P, d, h, hp => by
    rcases d with _ | ⟨x, _ | ⟨y, d⟩⟩
    · simp only [List.flatMap_cons, pairOps, List.nil_append, List.cons_append, List.cons.injEq] at h
      obtain ⟨rfl, -⟩ := h
      simp [BuildOp.isPut] at hp
    · simp only [List.flatMap_cons, pairOps, List.singleton_append, List.cons_append,
        List.cons.injEq] at h
      obtain ⟨rfl, rfl, -⟩ := h
      exact ⟨q, i, v, rfl, rfl, by simp [BuildOp.isPut]⟩
    · simp only [List.flatMap_cons, pairOps, List.cons_append, List.nil_append, List.cons.injEq] at h
      obtain ⟨rfl, rfl, h⟩ := h
      have hp' : (∃ q i, d.getLast? = some (.fetchInc q i)) ∨ a.isPut := by
        rcases hp with ⟨q', i', hl⟩ | hp
        · cases d with
          | nil => simp at hl
          | cons z d => exact .inl ⟨q', i', by rwa [List.getLast?_cons_cons, List.getLast?_cons_cons] at hl⟩
        · exact .inr hp
      obtain ⟨q', i', v', hl, rfl, hP⟩ := pairs_shape Z hZ P d h hp'
      have hd : d ≠ [] := by rintro rfl; simp at hl
      refine ⟨q', i', v', ?_, rfl, ?_⟩
      · obtain ⟨z, d, rfl⟩ := List.exists_cons_of_ne_nil hd
        rwa [List.getLast?_cons_cons, List.getLast?_cons_cons]
      · simpa [List.countP_cons, BuildOp.isPut] using hP

theorem fill_shape {X Z : List BuildOp} (hX : ∀ op ∈ X, op.isFill = false)
    (hZ : ∀ op ∈ Z, op.isFill = false) {P : List (Nat × Nat × Nat)} {d r : List BuildOp} {a : BuildOp}
    (h : d ++ a :: r = X ++ (P.flatMap pairOps ++ Z))
    (hp : (∃ q i, d.getLast? = some (.fetchInc q i)) ∨ a.isPut) :
    ∃ q i v, d.getLast? = some (.fetchInc q i) ∧ a = .putNeigh q v ∧
      P[d.countP BuildOp.isPut]? = some (q, i, v) := by
  have hfetch : ∀ (op : BuildOp) q i, op.isFill = false → op ≠ .fetchInc q i := fun op q i h e => by
    subst e; simp [BuildOp.isFill] at h
  rcases List.append_eq_append_iff.1 h with ⟨a', hX', h'⟩ | ⟨c', rfl, h'⟩
  · -- the rank has not reached the copy loop
    exfalso
    have hd : ∀ q i, d.getLast? ≠ some (.fetchInc q i) := fun q i hl =>
      hfetch _ q i (hX _ (hX' ▸ List.mem_append_left _ (List.mem_of_mem_getLast? hl))) rfl
    cases a' with
    | nil =>
      simp only [List.nil_append] at h'
      rcases hp with ⟨q, i, hl⟩ | hp
      · exact hd q i hl
      · cases P with
        | nil =>
          rw [BuildOp.isPut_eq_false_of_isFill
            (hZ a (by rw [List.flatMap_nil, List.nil_append] at h'; rw [← h']; simp))] at hp
          cases hp
        | cons x P =>
          simp only [List.flatMap_cons, pairOps, List.cons_append, List.cons.injEq] at h'
          obtain ⟨rfl, -⟩ := h'
          simp [BuildOp.isPut] at hp
    | cons b a' =>
      obtain ⟨rfl, -⟩ := List.cons.inj h'
      rcases hp with ⟨q, i, hl⟩ | hp
      · exact hd q i hl
      · rw [BuildOp.isPut_eq_false_of_isFill (hX a (by rw [hX']; simp))] at hp; cases hp
  · have hX0 : X.countP BuildOp.isPut = 0 := List.countP_eq_zero.2 fun op h => by
      simp [BuildOp.isPut_eq_false_of_isFill (hX op h)]
    have hlast : ∀ q i, (X ++ c').getLast? = some (.fetchInc q i) → c'.getLast? = some (.fetchInc q i) :=
      fun q i hl => by
        rw [List.getLast?_append] at hl
        cases hc : c'.getLast? with
        | some z => rw [hc] at hl; simpa using hl
        | none =>
          rw [hc, Option.none_or] at hl
          exact absurd (hX _ (List.mem_of_mem_getLast? hl)) (by simp [BuildOp.isFill])
    obtain ⟨q, i, v, hl, rfl, hP⟩ := pairs_shape Z hZ P c' h'.symm
      (hp.imp (fun ⟨q, i, hl⟩ => ⟨q, i, hlast q i hl⟩) id)
    refine ⟨q, i, v, ?_, rfl, by rwa [List.countP_append, hX0, Nat.zero_add]⟩
    rw [List.getLast?_append, hl]; rfl

end Pairs

/-! ### What one operation writes -/

section Apply

variable {c : BuildCfg} (w : BuildWorld) (pe q : Nat)

theorem update_ranks_apply (p : Nat) (f : BuildRank → BuildRank) :
    (w.update p f).ranks q = if q = p then f (w.ranks p) else w.ranks q := by
  simp [BuildWorld.update, Function.update_apply]

theorem degrees_apply (op : BuildOp) (i : Nat) :
    ((op.apply c pe w).ranks q).degrees i = (w.ranks q).degrees i + if op = .inc q i then 1 else 0 := by
  cases op with
  | inc q' i' =>
    simp only [BuildOp.apply, update_ranks_apply, BuildOp.inc.injEq]
    by_cases hq : q = q'
    · subst hq; by_cases hi : i = i' <;> simp [hi, Function.update_apply, @eq_comm _ i']
    · simp [hq, Ne.symm hq]
  | _ =>
    simp only [BuildOp.apply, update_ranks_apply, reduceCtorEq, if_false, Nat.add_zero] <;>
      split_ifs <;> subst_vars <;> rfl

theorem total_apply (op : BuildOp) : ((op.apply c pe w).ranks q).total =
    if op = .blockSums ∧ q = pe then prefixSums (w.ranks pe).degrees c.vp.maxWidth
    else (w.ranks q).total := by
  cases op
  case blockSums => by_cases h : q = pe <;> simp [BuildOp.apply, update_ranks_apply, h]
  all_goals simp only [BuildOp.apply, update_ranks_apply, apply_ite BuildRank.total, ite_eq_right_iff,
    reduceCtorEq, false_and, if_false]
  all_goals first | (intro h; subst h; rfl) | (split_ifs <;> subst_vars <;> rfl)

theorem offsets_apply (op : BuildOp) (i : Nat) : ((op.apply c pe w).ranks q).offsets i =
    if op = .prefixFill ∧ q = pe then
      (if i < c.vp.maxWidth then prefixSums (w.ranks pe).degrees i else (w.ranks pe).total)
    else (w.ranks q).offsets i + if op = .fetchInc q i then 1 else 0 := by
  cases op with
  | prefixFill => by_cases h : q = pe <;> simp [BuildOp.apply, update_ranks_apply, h]
  | fetchInc q' i' =>
    simp only [BuildOp.apply, update_ranks_apply, reduceCtorEq, false_and, if_false,
      BuildOp.fetchInc.injEq]
    by_cases hq : q = q'
    · subst hq
      by_cases hp : q = pe <;> by_cases hi : i = i' <;> simp [hp, hi, Function.update_apply, @eq_comm _ i']
    · simp only [hq, Ne.symm hq, if_false, false_and, Nat.add_zero]
      split_ifs <;> simp_all
  | _ =>
    simp only [BuildOp.apply, update_ranks_apply, reduceCtorEq, false_and, if_false, Nat.add_zero] <;>
      split_ifs <;> subst_vars <;> rfl

theorem index_apply (op : BuildOp) : ((op.apply c pe w).ranks q).index =
    if op = .genIndex ∧ q = pe then (w.ranks pe).offsets else (w.ranks q).index := by
  cases op
  case genIndex => by_cases h : q = pe <;> simp [BuildOp.apply, update_ranks_apply, h]
  all_goals simp only [BuildOp.apply, update_ranks_apply, apply_ite BuildRank.index, ite_eq_right_iff,
    reduceCtorEq, false_and, if_false]
  all_goals first | (intro h; subst h; rfl) | (split_ifs <;> subst_vars <;> rfl)

theorem neighbor_apply {op : BuildOp} (hop : ∀ q' i', op ≠ .fetchInc q' i') :
    ((op.apply c pe w).ranks q).neighbor = (w.ranks q).neighbor := by
  cases op
  case fetchInc q' i' => exact absurd rfl (hop q' i')
  all_goals simp only [BuildOp.apply, update_ranks_apply, apply_ite BuildRank.neighbor, ite_eq_right_iff]
  all_goals intro h; subst h; rfl

theorem neighbor_apply_fetchInc (q' i' : Nat) : (((BuildOp.fetchInc q' i').apply c pe w).ranks q).neighbor =
    if q = pe then (w.ranks q').offsets i' else (w.ranks q).neighbor := by
  simp only [BuildOp.apply, update_ranks_apply]
  split_ifs <;> simp_all [Function.update_apply]

theorem neighs_apply {op : BuildOp} (hop : op.isPut = false) :
    ((op.apply c pe w).ranks q).neighs = (w.ranks q).neighs := by
  cases op
  case putNeigh => cases hop
  all_goals simp only [BuildOp.apply, update_ranks_apply, apply_ite BuildRank.neighs, ite_eq_right_iff]
  all_goals first | (intro h; subst h; rfl) | (split_ifs <;> subst_vars <;> rfl)

theorem neighs_apply_putNeigh (q' v : Nat) : (((BuildOp.putNeigh q' v).apply c pe w).ranks q).neighs =
    if q = q' then Function.update (w.ranks q).neighs (w.ranks pe).neighbor v else (w.ranks q).neighs := by
  simp only [BuildOp.apply, update_ranks_apply]
  split_ifs <;> simp_all [Function.update_apply]

theorem advance_ranks : (w.advance pe).ranks q =
    { w.ranks q with rest := if q = pe then (w.ranks q).rest.tail else (w.ranks q).rest } := by
  rcases eq_or_ne q pe with rfl | h
  · simp [BuildWorld.advance]
  · simp [BuildWorld.advance, BuildWorld.update_ranks_ne _ _ h, h]

theorem syncWorld_ranks : (c.syncWorld w).ranks q =
    { w.ranks q with rest := if q < c.vp.npes then (w.ranks q).rest.tail else (w.ranks q).rest } := by
  simp only [BuildCfg.syncWorld]; split_ifs <;> rfl

theorem neighbor_apply_ne {q : Nat} (hq : q ≠ pe) (op : BuildOp) :
    ((op.apply c pe w).ranks q).neighbor = (w.ranks q).neighbor := by
  by_cases h : ∃ q' i', op = .fetchInc q' i'
  · obtain ⟨q', i', rfl⟩ := h
    rw [neighbor_apply_fetchInc, if_neg hq]
  · push_neg at h
    exact neighbor_apply w pe q h

end Apply

/-! ### Cells and segments -/

section Cells

theorem prefixSums_succ (d : Nat → Nat) (i : Nat) : prefixSums d (i + 1) = prefixSums d i + d i := by
  simp [prefixSums, List.range_succ, List.sum_append]

theorem prefixSums_mono (d : Nat → Nat) : Monotone (prefixSums d) :=
  monotone_nat_of_le_succ fun i => by rw [prefixSums_succ]; omega

theorem perm_filter_map_update {S : List Nat} (hS : S.Nodup) {k : Nat} (hk : k ∈ S) {f f' : Nat → Bool}
    (hf : f k = false) (hf' : f' k = true) (hff : ∀ x, x ≠ k → f' x = f x) (N : Nat → Nat) (v : Nat) :
    ((S.filter f').map (Function.update N k v)).Perm ((S.filter f).map N ++ [v]) := by
  obtain ⟨A, B, rfl⟩ := List.append_of_mem hk
  have hAB := (List.nodup_cons.1 (List.nodup_middle.1 hS)).1
  have hfilter : ∀ L : List Nat, k ∉ L → L.filter f' = L.filter f := fun L hL =>
    List.filter_congr fun x hx => hff x (ne_of_mem_of_not_mem hx hL)
  have hmap : ∀ L : List Nat, k ∉ L → (L.filter f).map (Function.update N k v) = (L.filter f).map N :=
    fun L hL => List.map_congr_left fun x hx =>
      Function.update_noteq (ne_of_mem_of_not_mem (List.mem_of_mem_filter hx) hL) _ _
  have hA : k ∉ A := fun h => hAB (List.mem_append_left _ h)
  have hB : k ∉ B := fun h => hAB (List.mem_append_right _ h)
  rw [List.filter_append, List.filter_cons_of_pos hf', hfilter A hA, hfilter B hB, List.map_append,
    List.map_cons, hmap A hA, hmap B hB, Function.update_same, List.filter_append,
    List.filter_cons_of_neg (by simp [hf]), List.map_append]
  exact List.perm_middle.trans (List.perm_append_singleton _ _).symm

theorem flatMap_perm_of_segment {L : List Nat} (hL : L.Nodup) {pe : Nat} (hpe : pe ∈ L)
    (f g : Nat → List Nat) (v : List Nat) (hg : ∀ p, g p = f p ++ if p = pe then v else []) :
    (L.flatMap g).Perm (L.flatMap f ++ v) := by
  obtain ⟨A, B, rfl⟩ := List.append_of_mem hpe
  have hAB := (List.nodup_cons.1 (List.nodup_middle.1 hL)).1
  have hseg : ∀ L : List Nat, pe ∉ L → L.flatMap g = L.flatMap f := fun L hL =>
    List.flatMap_congr fun p hp => by rw [hg, if_neg (ne_of_mem_of_not_mem hp hL), List.append_nil]
  rw [List.flatMap_append, List.flatMap_cons, hseg A fun h => hAB (List.mem_append_left _ h),
    hseg B fun h => hAB (List.mem_append_right _ h), hg, if_pos rfl, List.flatMap_append,
    List.flatMap_cons]
  simp only [List.append_assoc, List.perm_append_left_iff]
  exact List.perm_append_comm

theorem filter_append_pending {S E P P' : List Nat} (hE : ∀ x ∈ E, x ∈ P')
    (hP : ∀ x ∈ S, x ∈ P' ↔ x ∈ P) : (S ++ E).filter (· ∉ P') = S.filter (· ∉ P) := by
  have hE' : E.filter (· ∉ P') = [] := List.filter_eq_nil_iff.2 fun x hx => by simpa using hE x hx
  rw [List.filter_append, hE', List.append_nil]
  exact List.filter_congr fun x hx => by simp only [hP x hx]

theorem filter_map_congr {S P P' : List Nat} {N N' : Nat → Nat} (hP : ∀ x ∈ S, x ∈ P' ↔ x ∈ P)
    (hN : ∀ x ∈ S, N' x = N x) : (S.filter (· ∉ P')).map N' = (S.filter (· ∉ P)).map N := by
  have hS : S.filter (· ∉ P') = S.filter (· ∉ P) := List.filter_congr fun x hx => by simp only [hP x hx]
  rw [hS]
  exact List.map_congr_left fun x hx => hN x (List.mem_of_mem_filter hx)

end Cells

/-! ### The ranks' lists -/

namespace BuildCfg

variable (c : BuildCfg)

def triples (p : Nat) : List (Nat × Nat × Nat) := fillTriples c.vp c.symmetrize c.transpose (c.el p)

/-- The increments of cell `i` of rank `q`'s `degrees` that the ranks' lists hold. -/
def deg (q i : Nat) : Nat := ∑ p in Finset.range c.vp.npes, (c.ops p).count (.inc q i)

/-- `prefix[i]` of rank `q` over the final `degrees`: its `offsets`, and then its `index`. -/
def base (q i : Nat) : Nat := prefixSums (c.deg q) (min i c.vp.maxWidth)

def issued (ds : Nat → List BuildOp) (op : BuildOp) : Nat :=
  ∑ p in Finset.range c.vp.npes, (ds p).count op

/-- The cells of `q`'s `neighs` the `fetch_inc`s on cursor `i` have claimed. -/
def slots (ds : Nat → List BuildOp) (q i : Nat) : List Nat :=
  List.range' (c.base q i) (c.issued ds (.fetchInc q i))

/-- The claimed cells of cursor `i` of `q` whose put is still to come. -/
def pendSlots (w : BuildWorld) (ds : Nat → List BuildOp) (q i : Nat) : List Nat :=
  ((List.range c.vp.npes).filter fun p => (ds p).getLast? = some (.fetchInc q i)).map
    fun p => (w.ranks p).neighbor

/-- What the ranks' completed pairs have put through cursor `i` of `q`. -/
def putVals (ds : Nat → List BuildOp) (q i : Nat) : List Nat :=
  (List.range c.vp.npes).flatMap fun p =>
    ((c.triples p).take ((ds p).countP BuildOp.isPut)).filterMap (selPut q i)

theorem ops_eq_fill (p : Nat) : c.ops p = (preFill c.vp c.symmetrize c.transpose (c.el p) ++ [.barrier]) ++
    ((c.triples p).flatMap pairOps ++ [.barrier, .alloc, .alloc]) := by
  rw [ops, makeCsrOps_eq_preFill, fillOps_eq_flatMap]; simp [triples]

theorem count_ops_of_isFill {op : BuildOp} (hop : op.isFill = true) (p : Nat) :
    (c.ops p).count op = (fillOps c.vp c.symmetrize c.transpose (c.el p)).count op := by
  rw [ops, makeCsrOps_eq_preFill, List.count_append, List.count_eq_zero.2 fun h => by
    simp [isFill_preFill c.vp c.symmetrize c.transpose (c.el p) op (List.mem_append_left _ h)] at hop]
  simp [List.count_cons, hop]; cases op <;> simp_all [BuildOp.isFill]

theorem count_inc_ops (p q i : Nat) : (c.ops p).count (.inc q i) =
    (countDegreesLoop c.vp c.symmetrize c.transpose 0 (c.el p)).count (.inc q i) := by
  have hmax : ((List.range c.vp.npes).map BuildOp.putMax).count (.inc q i) = 0 :=
    List.count_eq_zero.2 (by simp)
  rw [ops, makeCsrOps, countDegreesOps, csrTail]
  simp only [List.count_append, List.count_cons, hmax,
    count_fillOps_eq_zero _ _ _ (show (BuildOp.inc q i).isFill = false from rfl)]
  simp

theorem count_fetchInc_ops (p q i : Nat) : (c.ops p).count (.fetchInc q i) = (c.ops p).count (.inc q i) := by
  rw [count_ops_of_isFill c (show (BuildOp.fetchInc q i).isFill = true from rfl), count_inc_ops,
    fillOps_count_fetchInc]

theorem countP_isPut_ops (p : Nat) : (c.ops p).countP BuildOp.isPut = (c.triples p).length := by
  have hpre : (preFill c.vp c.symmetrize c.transpose (c.el p) ++ [BuildOp.barrier]).countP BuildOp.isPut = 0 :=
    List.countP_eq_zero.2 fun op h => by
      simp [BuildOp.isPut_eq_false_of_isFill (isFill_preFill c.vp c.symmetrize c.transpose (c.el p) op h)]
  have hpairs : ∀ P : List (Nat × Nat × Nat), (P.flatMap pairOps).countP BuildOp.isPut = P.length := by
    intro P; induction P with
    | nil => rfl
    | cons x P ih => simp [pairOps, List.countP_cons, BuildOp.isPut, ih]
  rw [ops_eq_fill, List.countP_append, hpre, List.countP_append, hpairs]
  simp [BuildOp.isPut]

theorem getLast?_ops (p : Nat) : (c.ops p).getLast? = some .alloc := by
  rw [ops_eq_fill, List.getLast?_append, List.getLast?_append]; rfl

theorem count_ops_eq_one {op : BuildOp} (hop : op.isStage = true) (p : Nat) : (c.ops p).count op = 1 := by
  have hcd : (countDegreesLoop c.vp c.symmetrize c.transpose 0 (c.el p)).count op = 0 :=
    List.count_eq_zero.2 fun h => by
      rcases mem_countDegreesLoop _ _ _ h with rfl | ⟨q, i, rfl⟩ <;> cases hop
  have hfill := count_fillOps_eq_zero c.vp c.symmetrize c.transpose
    (show op.isFill = false by cases op <;> first | rfl | cases hop) (c.el p)
  have hmax : ((List.range c.vp.npes).map BuildOp.putMax).count op = 0 :=
    List.count_eq_zero.2 fun h => by
      obtain ⟨q, -, rfl⟩ := List.mem_map.1 h; cases hop
  rw [ops, makeCsrOps, countDegreesOps, csrTail]
  simp only [List.count_append, List.count_cons, hcd, hfill, hmax]
  cases op <;> first | rfl | cases hop

variable {c}

theorem fillTriples_bound (vp : Partition) (symmetrize transpose : Bool) :
    ∀ {el : List (Nat × Nat)}, (∀ e ∈ el, e.1 < vp.n ∧ e.2 < vp.n) →
      ∀ x ∈ fillTriples vp symmetrize transpose el, x.1 < vp.npes ∧ x.2.1 < vp.maxWidth
  | [], _ => by simp [fillTriples]
  | (u, v) :: el, hE => by
    have hv : ∀ y, y < vp.n → vp.recv y < vp.npes ∧ vp.localPos y < vp.maxWidth := fun y hy =>
      ⟨vp.recv_lt y, lt_of_lt_of_le (vp.localPos_lt_width hy) (vp.width_le_maxWidth _)⟩
    have he := hE (u, v) (List.mem_cons_self _ _)
    intro x hx
    simp only [fillTriples, List.mem_append] at hx
    rcases hx with (hx | hx) | hx
    · split_ifs at hx <;> simp at hx; subst hx; exact hv u he.1
    · split_ifs at hx <;> simp at hx; subst hx; exact hv v he.2
    · exact fillTriples_bound vp symmetrize transpose (fun e h => hE e (List.mem_cons_of_mem _ h)) x hx

theorem fetchInc_mem_ops {p q i : Nat} (hE : ∀ e ∈ c.el p, e.1 < c.vp.n ∧ e.2 < c.vp.n)
    (h : .fetchInc q i ∈ c.ops p) : q < c.vp.npes ∧ i < c.vp.maxWidth := by
  rw [← List.count_pos_iff, count_ops_of_isFill c (show (BuildOp.fetchInc q i).isFill = true from rfl),
    List.count_pos_iff, fillOps_eq_flatMap, List.mem_flatMap] at h
  obtain ⟨x, hx, hm⟩ := h
  simp only [pairOps, List.mem_cons, BuildOp.fetchInc.injEq, reduceCtorEq, List.mem_singleton,
    List.not_mem_nil, or_false] at hm
  obtain ⟨rfl, rfl⟩ := hm
  exact fillTriples_bound _ _ _ hE x hx

theorem mem_countDegreesOps {el : List (Nat × Nat)} {op : BuildOp}
    (h : op ∈ countDegreesOps c.vp c.symmetrize c.transpose el) :
    op = .alloc ∨ op = .barrier ∨ ∃ q i, op = .inc q i := by
  simp only [countDegreesOps, List.mem_cons, List.mem_append, List.mem_singleton, List.not_mem_nil,
    or_false] at h
  rcases h with (h | h | h) | h
  · exact .inl h
  · exact .inr (.inl h)
  · exact .inr (mem_countDegreesLoop _ _ _ h)
  · exact .inr (.inl h)

/-! ### Who is past what -/

section Stages

variable {w : BuildWorld} {ds : Nat → List BuildOp} (hA : c.Aligned) (hS : c.Staged w ds)

include hS in
theorem Staged.prefix_of_head {q : Nat} (hq : q < c.vp.npes) {op : BuildOp} {t : List BuildOp}
    (hr : (w.ranks q).rest = op :: t) {X : List BuildOp} (hX : X <+: c.ops q) (hop : op ∉ X) :
    X <+: ds q := by
  obtain ⟨Y, hY⟩ := hX
  exact prefix_of_not_mem hop (by rw [← hr, ← hS.split q hq, hY])

include hS in
theorem Staged.not_mem_of_head {q : Nat} (hq : q < c.vp.npes) {op : BuildOp} {t : List BuildOp}
    (hr : (w.ranks q).rest = op :: t) (h1 : (c.ops q).count op = 1) : op ∉ ds q := by
  rw [hS.split q hq, hr, List.count_append, List.count_cons_self] at h1
  exact List.count_eq_zero.1 (by omega)

include hS in
theorem Staged.count_le (p : Nat) (hp : p < c.vp.npes) (op : BuildOp) :
    (ds p).count op ≤ (c.ops p).count op := by
  rw [hS.split p hp]; exact (List.prefix_append _ _).sublist.count_le _

include hA hS in
theorem Staged.incs_done {q : Nat} (hq : q < c.vp.npes)
    (hx : countDegreesOps c.vp c.symmetrize c.transpose (c.el q) ++ [.barrier] <+: ds q) (q' i : Nat) :
    c.issued ds (.inc q' i) = c.deg q' i := by
  refine Finset.sum_congr rfl fun p hp => ?_
  have hp := Finset.mem_range.1 hp
  have hx' := hS.cross (show BuildOp.barrier.isCollective = true from rfl) (fun p _ => makeCsrOps_eq_count _ _ _ _)
    (fun p hp => by rw [collCount_countDegreesOps, collCount_countDegreesOps, hA p hp]) hq hp hx
  have hge := hx'.sublist.count_le (BuildOp.inc q' i)
  have hle := hS.count_le p hp (.inc q' i)
  rw [count_inc_ops] at hle ⊢
  simp only [countDegreesOps, List.count_append, List.count_cons, List.count_nil] at hge
  simp at hge
  omega

include hA hS in
theorem Staged.fill_all {p q : Nat} (hp : p < c.vp.npes) (hq : q < c.vp.npes)
    (hx : preFill c.vp c.symmetrize c.transpose (c.el p) ++ [.barrier] <+: ds p) :
    preFill c.vp c.symmetrize c.transpose (c.el q) ++ [.barrier] <+: ds q :=
  hS.cross (show BuildOp.barrier.isCollective = true from rfl) (fun p _ => makeCsrOps_eq_preFill _ _ _ _)
    (fun p hp => by rw [collCount_preFill, collCount_preFill, hA p hp]) hp hq hx

include hA hS in
theorem Staged.fill_of_fetchInc {p q : Nat} (hp : p < c.vp.npes) (hq : q < c.vp.npes) {q' i' : Nat}
    (hm : .fetchInc q' i' ∈ ds p) : preFill c.vp c.symmetrize c.transpose (c.el q) ++ [.barrier] <+: ds q :=
  hS.fill_all hA hp hq (prefix_of_mem (fun h => by simpa [BuildOp.isFill] using isFill_preFill _ _ _ _ _ h) hm
    ⟨_, (hS.split p hp).symm.trans (c.ops_eq_fill p)⟩)

include hA hS in
theorem Staged.issued_fetchInc_eq_zero {q : Nat} (hq : q < c.vp.npes)
    (hn : ¬preFill c.vp c.symmetrize c.transpose (c.el q) ++ [.barrier] <+: ds q) (q' i' : Nat) :
    c.issued ds (.fetchInc q' i') = 0 :=
  Finset.sum_eq_zero fun _ hp =>
    List.count_eq_zero.2 fun hm => hn (hS.fill_of_fetchInc hA (Finset.mem_range.1 hp) hq hm)

include hS in
theorem Staged.not_fill_of_head {q : Nat} (hq : q < c.vp.npes) {op : BuildOp} {t : List BuildOp}
    (hr : (w.ranks q).rest = op :: t) (hop : op.isStage = true) :
    ¬preFill c.vp c.symmetrize c.transpose (c.el q) ++ [.barrier] <+: ds q := fun h =>
  hS.not_mem_of_head hq hr (c.count_ops_eq_one hop q) (h.subset (by
    cases op <;> first | exact absurd hop Bool.false_ne_true | simp [preFill]))

theorem fill_tail : ∀ op ∈ [BuildOp.barrier, .alloc, .alloc], op.isFill = false := by decide

include hS in
theorem Staged.head_of_pending {p q i : Nat} (hp : p < c.vp.npes)
    (hl : (ds p).getLast? = some (.fetchInc q i)) :
    ∃ v t, (w.ranks p).rest = .putNeigh q v :: t ∧
      (c.triples p)[(ds p).countP BuildOp.isPut]? = some (q, i, v) := by
  cases hr : (w.ranks p).rest with
  | nil =>
    have := c.getLast?_ops p
    rw [hS.split p hp, hr, List.append_nil, hl] at this
    cases this
  | cons a t =>
    obtain ⟨q', i', v, hl', rfl, hP⟩ := fill_shape (isFill_preFill _ _ _ _) fill_tail
      (by rw [← hr, ← hS.split p hp, c.ops_eq_fill p]) (.inl ⟨q, i, hl⟩)
    obtain ⟨rfl, rfl⟩ : q = q' ∧ i = i' := by simpa [hl] using hl'
    exact ⟨v, t, rfl, hP⟩

include hS in
theorem Staged.pending_of_put {p q v : Nat} {t : List BuildOp} (hp : p < c.vp.npes)
    (hr : (w.ranks p).rest = .putNeigh q v :: t) :
    ∃ i, (ds p).getLast? = some (.fetchInc q i) ∧
      (c.triples p)[(ds p).countP BuildOp.isPut]? = some (q, i, v) := by
  obtain ⟨q', i', v', hl, he, hP⟩ := fill_shape (isFill_preFill _ _ _ _) fill_tail
    (by rw [← hr, ← hS.split p hp, c.ops_eq_fill p]) (.inr (show (BuildOp.putNeigh q v).isPut = true from rfl))
  obtain ⟨rfl, rfl⟩ := BuildOp.putNeigh.inj he
  exact ⟨i', hl, hP⟩

include hS in
theorem Staged.not_pending_of_head {p : Nat} (hp : p < c.vp.npes) {op : BuildOp} {t : List BuildOp}
    (hr : (w.ranks p).rest = op :: t) (hop : op.isPut = false) (q i : Nat) :
    (ds p).getLast? ≠ some (.fetchInc q i) := fun hl => by
  obtain ⟨v, t', hr', -⟩ := hS.head_of_pending hp hl
  rw [hr] at hr'
  obtain ⟨rfl, -⟩ := List.cons.inj hr'
  cases hop

end Stages

/-! ### What the ranks have issued after a step -/

section Issue

variable {ds : Nat → List BuildOp} {pe : Nat} {a : BuildOp}

theorem issued_update (hpe : pe < c.vp.npes) (op : BuildOp) :
    c.issued (Function.update ds pe (ds pe ++ [a])) op = c.issued ds op + if a = op then 1 else 0 := by
  have hmem := Finset.mem_range.2 hpe
  unfold issued
  rw [← Finset.add_sum_erase _ _ hmem, ← Finset.add_sum_erase _ _ hmem,
    Finset.sum_congr rfl fun p hp => by rw [Function.update_noteq (Finset.ne_of_mem_erase hp)]]
  by_cases h : a = op <;> simp [h, List.count_cons]; omega

theorem mem_update {q : Nat} {op : BuildOp} :
    op ∈ Function.update ds pe (ds pe ++ [a]) q ↔ op ∈ ds q ∨ q = pe ∧ op = a := by
  rcases eq_or_ne q pe with rfl | h <;> simp [*]

theorem getLast?_update (q : Nat) :
    (Function.update ds pe (ds pe ++ [a]) q).getLast? = if q = pe then some a else (ds q).getLast? := by
  rcases eq_or_ne q pe with rfl | h <;> simp [*]

theorem countP_update (q : Nat) (f : BuildOp → Bool) :
    (Function.update ds pe (ds pe ++ [a]) q).countP f =
      (ds q).countP f + if q = pe ∧ f a = true then 1 else 0 := by
  rcases eq_or_ne q pe with rfl | h <;> simp [*, List.countP_append, List.countP_cons]

end Issue

/-! ### The cells of a cursor -/

variable (c) in
/-- Every endpoint of every rank's edges is a vertex. -/
def EdgesValid : Prop := ∀ p < c.vp.npes, ∀ e ∈ c.el p, e.1 < c.vp.n ∧ e.2 < c.vp.n

instance : Decidable c.EdgesValid := inferInstanceAs (Decidable (∀ p < c.vp.npes, _))

section Slots

variable {w : BuildWorld} {ds : Nat → List BuildOp} {q i k : Nat}

theorem base_succ (hi : i < c.vp.maxWidth) : c.base q (i + 1) = c.base q i + c.deg q i := by
  rw [base, base, min_eq_left (Nat.succ_le_of_lt hi), min_eq_left hi.le, prefixSums_succ]

theorem base_mono (q : Nat) : Monotone (c.base q) := fun _ _ h =>
  prefixSums_mono _ (min_le_min_right _ h)

theorem mem_slots : k ∈ c.slots ds q i ↔ c.base q i ≤ k ∧ k < c.base q i + c.issued ds (.fetchInc q i) :=
  List.mem_range'_1

theorem mem_pendSlots {x : Nat} : x ∈ c.pendSlots w ds q i ↔
    ∃ p < c.vp.npes, (ds p).getLast? = some (.fetchInc q i) ∧ (w.ranks p).neighbor = x := by
  simp [pendSlots, and_assoc]

theorem pendSlots_eq_nil (h : ∀ p < c.vp.npes, (ds p).getLast? ≠ some (.fetchInc q i)) :
    c.pendSlots w ds q i = [] := by
  rw [pendSlots, List.map_eq_nil_iff, List.filter_eq_nil_iff]
  intro p hp
  simpa using h p (List.mem_range.1 hp)

theorem slots_update {pe : Nat} {a : BuildOp} (hpe : pe < c.vp.npes) :
    c.slots (Function.update ds pe (ds pe ++ [a])) q i = c.slots ds q i ++
      if a = .fetchInc q i then [c.base q i + c.issued ds (.fetchInc q i)] else [] := by
  rw [slots, slots, issued_update hpe]
  split_ifs
  · rw [List.range'_concat, Nat.one_mul]
  · rw [Nat.add_zero, List.append_nil]

theorem putVals_update_of_not_put {pe : Nat} {a : BuildOp} (ha : a.isPut = false) (q i : Nat) :
    c.putVals (Function.update ds pe (ds pe ++ [a])) q i = c.putVals ds q i := by
  simp only [putVals, countP_update, ha, Bool.false_eq_true, and_false, if_false, Nat.add_zero]

theorem putVals_put {pe : Nat} (hpe : pe < c.vp.npes) {x : Nat × Nat × Nat}
    (hP : (c.triples pe)[(ds pe).countP BuildOp.isPut]? = some x) (q i : Nat) :
    (c.putVals (Function.update ds pe (ds pe ++ [.putNeigh x.1 x.2.2])) q i).Perm
      (c.putVals ds q i ++ (selPut q i x).toList) := by
  refine flatMap_perm_of_segment (List.nodup_range _) (List.mem_range.2 hpe) _ _ _ fun p => ?_
  rw [countP_update]
  by_cases hp : p = pe
  · subst hp
    rw [if_pos ⟨rfl, rfl⟩, if_pos rfl, List.take_succ, hP, List.filterMap_append, Option.toList_some,
      List.filterMap_cons, List.filterMap_nil]
    cases selPut q i x <;> rfl
  · rw [if_neg fun h => hp h.1, if_neg hp, Nat.add_zero, List.append_nil]

theorem Staged.issued_le_deg (hS : c.Staged w ds) (q i : Nat) : c.issued ds (.fetchInc q i) ≤ c.deg q i :=
  Finset.sum_le_sum fun p hp =>
    (hS.count_le p (Finset.mem_range.1 hp) _).trans_eq (c.count_fetchInc_ops p q i)

theorem Staged.slot_bounds (hE : c.EdgesValid) (hS : c.Staged w ds) (hk : k ∈ c.slots ds q i) :
    i < c.vp.maxWidth ∧ c.base q i ≤ k ∧ k < c.base q (i + 1) := by
  rw [mem_slots] at hk
  obtain ⟨p, hp, hc⟩ := Finset.exists_ne_zero_of_sum_ne_zero (show c.issued ds (.fetchInc q i) ≠ 0 by omega)
  have hp := Finset.mem_range.1 hp
  have hi := (fetchInc_mem_ops (hE p hp)
    (by rw [hS.split p hp]; exact List.mem_append_left _ (List.count_pos_iff.1 (Nat.pos_of_ne_zero hc)))).2
  have := hS.issued_le_deg q i
  exact ⟨hi, hk.1, by rw [base_succ hi]; omega⟩

theorem Staged.slots_disjoint (hE : c.EdgesValid) (hS : c.Staged w ds) {i' : Nat} (hk : k ∈ c.slots ds q i)
    (hk' : k ∈ c.slots ds q i') : i = i' := by
  obtain ⟨-, h1, h2⟩ := hS.slot_bounds hE hk
  obtain ⟨-, h1', h2'⟩ := hS.slot_bounds hE hk'
  by_contra hne
  rcases Nat.lt_or_gt_of_ne hne with h | h
  · have := c.base_mono q (show i + 1 ≤ i' by omega); omega
  · have := c.base_mono q (show i' + 1 ≤ i by omega); omega

end Slots

/-! ### The invariant -/

/-- What `MakeCSR` has stored, given what the ranks have issued: the counts, the prefix sums, the
claimed cells, and what the completed pairs put. -/
structure Filled (w : BuildWorld) (ds : Nat → List BuildOp) : Prop where
  degrees : ∀ q i, (w.ranks q).degrees i = c.issued ds (.inc q i)
  total : ∀ q < c.vp.npes, .blockSums ∈ ds q → (w.ranks q).total = prefixSums (c.deg q) c.vp.maxWidth
  offsets : ∀ q < c.vp.npes, ∀ i, (w.ranks q).offsets i =
    if .prefixFill ∈ ds q then c.base q i + c.issued ds (.fetchInc q i) else 0
  index : ∀ q < c.vp.npes, .genIndex ∈ ds q → (w.ranks q).index = c.base q
  slot : ∀ p < c.vp.npes, ∀ q i, (ds p).getLast? = some (.fetchInc q i) →
    (w.ranks p).neighbor ∈ c.slots ds q i
  slot_inj : ∀ p < c.vp.npes, ∀ p' < c.vp.npes, ∀ q i, (ds p).getLast? = some (.fetchInc q i) →
    (ds p').getLast? = some (.fetchInc q i) → (w.ranks p).neighbor = (w.ranks p').neighbor → p = p'
  stored : ∀ q < c.vp.npes, ∀ i,
    (((c.slots ds q i).filter (· ∉ c.pendSlots w ds q i)).map (w.ranks q).neighs).Perm (c.putVals ds q i)

theorem filled_init : c.Filled (buildInit c) fun _ => [] where
  degrees _ _ := by simp [issued, buildInit]
  total _ _ h := absurd h (List.not_mem_nil _)
  offsets _ _ _ := by simp [buildInit]
  index _ _ h := absurd h (List.not_mem_nil _)
  slot _ _ _ _ h := by simp at h
  slot_inj _ _ _ _ _ _ h := by simp at h
  stored _ _ _ := by simp [slots, issued, putVals]

/-! ### One rank's step -/

theorem ops_eq_stage (p : Nat) : ∃ R, c.ops p = countDegreesOps c.vp c.symmetrize c.transpose (c.el p) ++
    ([.barrier, .blockSums, .alloc, .prefixFill, .alloc, .readLocalMax] ++ R) := ⟨_, rfl⟩

theorem not_mem_countDegreesOps {el : List (Nat × Nat)} {op : BuildOp} (hop : op.isCollective = false)
    (hinc : ∀ q i, op ≠ .inc q i) : op ∉ countDegreesOps c.vp c.symmetrize c.transpose el := fun h => by
  rcases mem_countDegreesOps h with rfl | rfl | ⟨q, i, rfl⟩
  · cases hop
  · cases hop
  · exact hinc q i rfl

section Act

variable {w : BuildWorld} {ds : Nat → List BuildOp} (hA : c.Aligned) (hE : c.EdgesValid)
  (hS : c.Staged w ds) (hF : c.Filled w ds) {pe : Nat} {op : BuildOp} {t : List BuildOp}
  (hpe : pe < c.vp.npes) (hr : (w.ranks pe).rest = op :: t)

include hS hpe hr in
theorem Staged.prefix_of_head_stage (hop : op ∉ countDegreesOps c.vp c.symmetrize c.transpose (c.el pe))
    (L : List BuildOp) (hL : L <+: [.barrier, .blockSums, .alloc, .prefixFill, .alloc, .readLocalMax])
    (hn : op ∉ L) : countDegreesOps c.vp c.symmetrize c.transpose (c.el pe) ++ L <+: ds pe := by
  obtain ⟨R, hR⟩ := c.ops_eq_stage pe
  refine hS.prefix_of_head hpe hr ?_ fun h => (List.mem_append.1 h).elim hop hn
  rw [hR]; exact (List.prefix_append_right_inj _).2 (hL.trans (List.prefix_append _ _))

include hA hS hF in
theorem Filled.degrees_eq_deg {q : Nat} (hq : q < c.vp.npes)
    (hx : countDegreesOps c.vp c.symmetrize c.transpose (c.el q) ++ [.barrier] <+: ds q) (q' : Nat) :
    (w.ranks q').degrees = c.deg q' :=
  funext fun i => (hF.degrees q' i).trans (hS.incs_done hA hq hx q' i)

include hA hS hpe in
theorem Staged.prefixFill_mem_of_fetchInc {q i : Nat} (hr : (w.ranks pe).rest = .fetchInc q i :: t)
    (hq : q < c.vp.npes) : .prefixFill ∈ ds q :=
  (hS.fill_all hA hpe hq (hS.prefix_of_head hpe hr ⟨_, (c.ops_eq_fill pe).symm⟩ fun h => by
    simpa [BuildOp.isFill] using isFill_preFill _ _ _ _ _ h)).subset (by simp [preFill])

include hA hE hS hF hpe in
theorem Filled.claim_eq {q i : Nat} (hr : (w.ranks pe).rest = .fetchInc q i :: t) :
    q < c.vp.npes ∧ (w.ranks q).offsets i = c.base q i + c.issued ds (.fetchInc q i) := by
  have hq := (fetchInc_mem_ops (hE pe hpe)
    (show BuildOp.fetchInc q i ∈ c.ops pe by rw [hS.split pe hpe, hr]; simp)).1
  exact ⟨hq, by rw [hF.offsets q hq i, if_pos (hS.prefixFill_mem_of_fetchInc hA hpe hr hq)]⟩

include hF hpe in
theorem Filled.degrees_act (q i : Nat) : (((op.apply c pe w).advance pe).ranks q).degrees i =
    c.issued (Function.update ds pe (ds pe ++ [op])) (.inc q i) := by
  simp only [advance_ranks, degrees_apply, issued_update hpe, hF.degrees q i]

include hA hS hF hpe hr in
theorem Filled.total_act {q : Nat} (hq : q < c.vp.npes)
    (hm : .blockSums ∈ Function.update ds pe (ds pe ++ [op]) q) :
    (((op.apply c pe w).advance pe).ranks q).total = prefixSums (c.deg q) c.vp.maxWidth := by
  simp only [advance_ranks, total_apply]
  split_ifs with h
  · obtain ⟨rfl, rfl⟩ : op = _ ∧ pe = q := ⟨h.1, h.2.symm⟩
    rw [hF.degrees_eq_deg hA hS hpe (hS.prefix_of_head_stage hpe hr (not_mem_countDegreesOps rfl (by simp)) [.barrier] (by simp)
      (by simp))]
  · rw [mem_update] at hm
    exact hF.total q hq (hm.resolve_right fun ⟨h1, h2⟩ => h ⟨h2.symm, h1⟩)

include hA hS hF hpe hr in
theorem Filled.offsets_act {q : Nat} (hq : q < c.vp.npes) (i : Nat) :
    (((op.apply c pe w).advance pe).ranks q).offsets i =
      if .prefixFill ∈ Function.update ds pe (ds pe ++ [op]) q then
        c.base q i + c.issued (Function.update ds pe (ds pe ++ [op])) (.fetchInc q i) else 0 := by
  simp only [advance_ranks, offsets_apply, issued_update hpe, mem_update]
  by_cases h : op = .prefixFill ∧ q = pe
  · obtain ⟨rfl, rfl⟩ : op = _ ∧ pe = q := ⟨h.1, h.2.symm⟩
    have hx := hS.prefix_of_head_stage hpe hr (not_mem_countDegreesOps rfl (by simp)) [.barrier, .blockSums]
      (by simp) (by simp)
    have hd := hF.degrees_eq_deg hA hS hpe
      (hS.prefix_of_head_stage hpe hr (not_mem_countDegreesOps rfl (by simp)) [.barrier] (by simp)
        (by simp)) pe
    have h0 := hS.issued_fetchInc_eq_zero hA hpe (hS.not_fill_of_head hpe hr rfl) pe i
    simp only [and_self, or_true, if_true, hd, h0, reduceCtorEq, if_false, Nat.add_zero]
    split_ifs with hi
    · rw [base, min_eq_left hi.le]
    · rw [hF.total pe hpe (hx.subset (by simp)), base, min_eq_right (not_lt.1 hi)]
  · have hmem : (.prefixFill ∈ ds q ∨ q = pe ∧ .prefixFill = op) ↔ .prefixFill ∈ ds q :=
      or_iff_left fun ⟨h1, h2⟩ => h ⟨h2.symm, h1⟩
    simp only [if_neg h, hmem, hF.offsets q hq i]
    by_cases hm : .prefixFill ∈ ds q
    · simp only [if_pos hm, Nat.add_assoc]
    · have hop : op ≠ .fetchInc q i := by
        rintro rfl; exact hm (hS.prefixFill_mem_of_fetchInc hA hpe hr hq)
      simp [hm, hop]

include hA hS hF hpe hr in
theorem Filled.index_act {q : Nat} (hq : q < c.vp.npes)
    (hm : .genIndex ∈ Function.update ds pe (ds pe ++ [op]) q) :
    (((op.apply c pe w).advance pe).ranks q).index = c.base q := by
  simp only [advance_ranks, index_apply]
  split_ifs with h
  · obtain ⟨rfl, rfl⟩ : op = _ ∧ pe = q := ⟨h.1, h.2.symm⟩
    have hx := hS.prefix_of_head_stage hpe hr (not_mem_countDegreesOps rfl (by simp))
      [.barrier, .blockSums, .alloc, .prefixFill] (by simp) (by simp)
    funext i
    rw [hF.offsets pe hpe i, if_pos (hx.subset (by simp)),
      hS.issued_fetchInc_eq_zero hA hpe (hS.not_fill_of_head hpe hr rfl), Nat.add_zero]
  · rw [mem_update] at hm
    exact hF.index q hq (hm.resolve_right fun ⟨h1, h2⟩ => h ⟨h2.symm, h1⟩)

include hA hE hS hF hpe hr in
theorem Filled.slot_act {p : Nat} (hp : p < c.vp.npes) {q i : Nat}
    (hl : (Function.update ds pe (ds pe ++ [op]) p).getLast? = some (.fetchInc q i)) :
    (((op.apply c pe w).advance pe).ranks p).neighbor ∈ c.slots (Function.update ds pe (ds pe ++ [op])) q i := by
  rw [getLast?_update] at hl
  simp only [advance_ranks, mem_slots, issued_update hpe]
  split_ifs at hl with hpp
  · subst hpp
    obtain rfl := Option.some.inj hl
    obtain ⟨-, hc⟩ := hF.claim_eq hA hE hS hpe hr
    rw [neighbor_apply_fetchInc, if_pos rfl, hc, if_pos rfl]
    omega
  · rw [neighbor_apply_ne _ _ hpp]
    have := mem_slots.1 (hF.slot p hp q i hl)
    omega

include hA hE hS hF hpe hr in
theorem Filled.claim_ne {p : Nat} (hp : p < c.vp.npes) (hne : p ≠ pe) {q i : Nat} (hop : op = .fetchInc q i)
    (hl : (ds p).getLast? = some (.fetchInc q i)) :
    (((op.apply c pe w).advance pe).ranks pe).neighbor ≠ (((op.apply c pe w).advance pe).ranks p).neighbor := by
  subst hop
  obtain ⟨-, hc⟩ := hF.claim_eq hA hE hS hpe hr
  have := (mem_slots.1 (hF.slot p hp q i hl)).2
  simp only [advance_ranks, neighbor_apply_fetchInc, if_true, if_neg hne, hc]
  omega

include hA hE hS hF hpe hr in
theorem Filled.slot_inj_act {p p' : Nat} (hp : p < c.vp.npes) (hp' : p' < c.vp.npes) {q i : Nat}
    (hl : (Function.update ds pe (ds pe ++ [op]) p).getLast? = some (.fetchInc q i))
    (hl' : (Function.update ds pe (ds pe ++ [op]) p').getLast? = some (.fetchInc q i))
    (hn : (((op.apply c pe w).advance pe).ranks p).neighbor = (((op.apply c pe w).advance pe).ranks p').neighbor) :
    p = p' := by
  rw [getLast?_update] at hl hl'
  split_ifs at hl hl' with h1 h2 h2
  · exact h1.trans h2.symm
  · subst h1; exact absurd hn (hF.claim_ne hA hE hS hpe hr hp' h2 (Option.some.inj hl) hl')
  · subst h2; exact absurd hn.symm (hF.claim_ne hA hE hS hpe hr hp h1 (Option.some.inj hl') hl)
  · simp only [advance_ranks, neighbor_apply_ne _ _ h1, neighbor_apply_ne _ _ h2] at hn
    exact hF.slot_inj p hp p' hp' q i hl hl' hn

include hS hpe hr in
theorem Staged.mem_pendSlots_act (hput : op.isPut = false) {x q i : Nat} :
    x ∈ c.pendSlots ((op.apply c pe w).advance pe) (Function.update ds pe (ds pe ++ [op])) q i ↔
      x ∈ c.pendSlots w ds q i ∨
        op = .fetchInc q i ∧ x = (((op.apply c pe w).advance pe).ranks pe).neighbor := by
  have hpend := hS.not_pending_of_head hpe hr hput q i
  simp only [mem_pendSlots, getLast?_update]
  constructor
  · rintro ⟨p, hp, hl, rfl⟩
    split_ifs at hl with h
    · subst h; exact .inr ⟨Option.some.inj hl, rfl⟩
    · exact .inl ⟨p, hp, hl, by simp only [advance_ranks, neighbor_apply_ne _ _ h]⟩
  · rintro (⟨p, hp, hl, rfl⟩ | ⟨h, rfl⟩)
    · have h : p ≠ pe := by rintro rfl; exact hpend hl
      exact ⟨p, hp, by rw [if_neg h]; exact hl, by simp only [advance_ranks, neighbor_apply_ne _ _ h]⟩
    · exact ⟨pe, hpe, by rw [if_pos rfl, h], rfl⟩

include hA hE hS hF hpe hr in
theorem Filled.stored_of_not_put (hput : op.isPut = false) {q : Nat} (hq : q < c.vp.npes) (i : Nat) :
    (((c.slots (Function.update ds pe (ds pe ++ [op])) q i).filter
      (· ∉ c.pendSlots ((op.apply c pe w).advance pe) (Function.update ds pe (ds pe ++ [op])) q i)).map
        (((op.apply c pe w).advance pe).ranks q).neighs).Perm
      (c.putVals (Function.update ds pe (ds pe ++ [op])) q i) := by
  have hclaim : op = .fetchInc q i →
      (((op.apply c pe w).advance pe).ranks pe).neighbor = c.base q i + c.issued ds (.fetchInc q i) := by
    rintro rfl
    simp only [advance_ranks, neighbor_apply_fetchInc, if_true]
    exact (hF.claim_eq hA hE hS hpe hr).2
  rw [slots_update hpe, filter_append_pending (fun x hx => ?_) (fun x hx => ?_),
    putVals_update_of_not_put hput]
  · simp only [advance_ranks, neighs_apply _ _ _ hput]
    exact hF.stored q hq i
  · split_ifs at hx with h
    · rw [List.mem_singleton] at hx
      exact (hS.mem_pendSlots_act hpe hr hput).2 (.inr ⟨h, hx.trans (hclaim h).symm⟩)
    · cases hx
  · rw [hS.mem_pendSlots_act hpe hr hput, or_iff_left]
    rintro ⟨h, rfl⟩
    have := (mem_slots.1 hx).2
    rw [hclaim h] at this
    omega

end Act

section Put

variable {w : BuildWorld} {ds : Nat → List BuildOp} (hA : c.Aligned) (hE : c.EdgesValid)
  (hS : c.Staged w ds) (hF : c.Filled w ds) {pe : Nat} {t : List BuildOp} (hpe : pe < c.vp.npes)
  {q' v : Nat} (hr : (w.ranks pe).rest = .putNeigh q' v :: t)

include hF hpe hr in
theorem Filled.mem_pendSlots_put {x q i : Nat} :
    x ∈ c.pendSlots (((BuildOp.putNeigh q' v).apply c pe w).advance pe)
        (Function.update ds pe (ds pe ++ [.putNeigh q' v])) q i ↔
      x ∈ c.pendSlots w ds q i ∧ ¬((ds pe).getLast? = some (.fetchInc q i) ∧ (w.ranks pe).neighbor = x) := by
  have hnb : ∀ p, ((((BuildOp.putNeigh q' v).apply c pe w).advance pe).ranks p).neighbor =
      (w.ranks p).neighbor := fun p => by
    simp only [advance_ranks]
    exact neighbor_apply w pe p fun _ _ => by simp
  simp only [mem_pendSlots, getLast?_update, hnb]
  constructor
  · rintro ⟨p, hp, hl, rfl⟩
    have h : p ≠ pe := by rintro rfl; simp at hl
    rw [if_neg h] at hl
    exact ⟨⟨p, hp, hl, rfl⟩, fun ⟨hl', hn⟩ => h (hF.slot_inj p hp pe hpe q i hl hl' hn.symm)⟩
  · rintro ⟨⟨p, hp, hl, rfl⟩, hn⟩
    have h : p ≠ pe := by rintro rfl; exact hn ⟨hl, rfl⟩
    exact ⟨p, hp, by rw [if_neg h]; exact hl, rfl⟩

include hE hS hF hpe hr in
theorem Filled.stored_put {q : Nat} (hq : q < c.vp.npes) (i : Nat) :
    (((c.slots (Function.update ds pe (ds pe ++ [.putNeigh q' v])) q i).filter
      (· ∉ c.pendSlots (((BuildOp.putNeigh q' v).apply c pe w).advance pe)
        (Function.update ds pe (ds pe ++ [.putNeigh q' v])) q i)).map
        ((((BuildOp.putNeigh q' v).apply c pe w).advance pe).ranks q).neighs).Perm
      (c.putVals (Function.update ds pe (ds pe ++ [.putNeigh q' v])) q i) := by
  obtain ⟨i', hl, hP⟩ := hS.pending_of_put hpe hr
  have hk := hF.slot pe hpe q' i' hl
  refine List.Perm.trans ?_ (putVals_put hpe hP q i).symm
  rw [slots_update hpe, if_neg (by simp), List.append_nil]
  simp only [advance_ranks, neighs_apply_putNeigh]
  by_cases hqi : q = q' ∧ i = i'
  · obtain ⟨rfl, rfl⟩ := hqi
    rw [if_pos rfl, show selPut q i (q, i, v) = some v from if_pos ⟨rfl, rfl⟩, Option.toList_some]
    refine (perm_filter_map_update (List.nodup_range' _ _) hk ?_ ?_ (fun x hx => ?_) _ v).trans
      ((hF.stored q hq i).append_right [v])
    · simpa using mem_pendSlots.2 ⟨pe, hpe, hl, rfl⟩
    · simp [hF.mem_pendSlots_put hpe hr, hl]
    · simp [hF.mem_pendSlots_put hpe hr, hl, Ne.symm hx]
  · rw [show selPut q i (q', i', v) = none from if_neg fun h => hqi ⟨h.1.symm, h.2.symm⟩,
      Option.toList_none, List.append_nil]
    refine (List.Perm.of_eq (filter_map_congr (fun x _ => ?_) (fun x hx => ?_))).trans (hF.stored q hq i)
    · rw [hF.mem_pendSlots_put hpe hr, hl]
      exact and_iff_left fun ⟨h, _⟩ => hqi (by simp at h; omega)
    · split_ifs with h
      · subst h
        refine Function.update_noteq (fun hx' => hqi ⟨rfl, ?_⟩) _ _
        exact hS.slots_disjoint hE (hx'.symm ▸ hx) hk
      · rfl

end Put

theorem Filled.act (hA : c.Aligned) (hE : c.EdgesValid) {w : BuildWorld} {ds : Nat → List BuildOp} (hS : c.Staged w ds) (hF : c.Filled w ds)
    {pe : Nat} {op : BuildOp} {t : List BuildOp} (hpe : pe < c.vp.npes) (hr : (w.ranks pe).rest = op :: t) :
    c.Filled ((op.apply c pe w).advance pe) (Function.update ds pe (ds pe ++ [op])) where
  degrees := hF.degrees_act hpe
  total _ hq hm := hF.total_act hA hS hpe hr hq hm
  offsets _ hq := hF.offsets_act hA hS hpe hr hq
  index _ hq hm := hF.index_act hA hS hpe hr hq hm
  slot _ hp _ _ hl := hF.slot_act hA hE hS hpe hr hp hl
  slot_inj _ hp _ hp' _ _ hl hl' hn := hF.slot_inj_act hA hE hS hpe hr hp hp' hl hl' hn
  stored _ hq i := by
    cases hput : op.isPut
    · exact hF.stored_of_not_put hA hE hS hpe hr hput hq i
    · obtain ⟨q', v, rfl⟩ := BuildOp.eq_putNeigh_of_isPut hput
      exact hF.stored_put hE hS hpe hr hq i

/-! ### Every rank's step past a collective -/

section Sync

variable {w : BuildWorld} {ds : Nat → List BuildOp} (hall : c.AllAtCollective w)

include hall in
theorem count_syncIssued (op : BuildOp) (hop : op.isCollective = false) (p : Nat) :
    (c.syncIssued w ds p).count op = (ds p).count op := by
  unfold syncIssued
  split_ifs with hp
  · obtain ⟨op', t, hr, hc⟩ := hall p hp
    have hne : op' ≠ op := by rintro rfl; simp_all
    simp [hr, List.count_cons, hne]
  · rfl

include hall in
theorem issued_syncIssued (op : BuildOp) (hop : op.isCollective = false) :
    c.issued (c.syncIssued w ds) op = c.issued ds op :=
  Finset.sum_congr rfl fun p _ => count_syncIssued hall op hop p

include hall in
theorem mem_syncIssued (op : BuildOp) (hop : op.isCollective = false) {p : Nat} :
    op ∈ c.syncIssued w ds p ↔ op ∈ ds p := by
  rw [← List.count_pos_iff, count_syncIssued hall op hop, List.count_pos_iff]

include hall in
theorem countP_isPut_syncIssued (p : Nat) :
    (c.syncIssued w ds p).countP BuildOp.isPut = (ds p).countP BuildOp.isPut := by
  unfold syncIssued
  split_ifs with hp
  · obtain ⟨op', t, hr, hc⟩ := hall p hp
    simp [hr, List.countP_append, BuildOp.isPut_eq_false_of_isFill (BuildOp.isFill_eq_false_of_isCollective hc)]
  · rfl

include hall in
theorem getLast?_syncIssued {p : Nat} (hp : p < c.vp.npes) (q i : Nat) :
    (c.syncIssued w ds p).getLast? ≠ some (.fetchInc q i) := by
  obtain ⟨op', t, hr, hc⟩ := hall p hp
  simp [syncIssued, hp, hr]
  rintro rfl
  cases hc

include hall in
theorem Filled.sync (hS : c.Staged w ds) (hF : c.Filled w ds) :
    c.Filled (c.syncWorld w) (c.syncIssued w ds) where
  degrees q i := by
    simp only [syncWorld_ranks, issued_syncIssued hall (.inc q i) rfl]; exact hF.degrees q i
  total q hq hm := by
    simp only [syncWorld_ranks]; exact hF.total q hq ((mem_syncIssued hall .blockSums rfl).1 hm)
  offsets q hq i := by
    simp only [syncWorld_ranks, mem_syncIssued hall .prefixFill rfl,
      issued_syncIssued hall (.fetchInc q i) rfl]
    exact hF.offsets q hq i
  index q hq hm := by
    simp only [syncWorld_ranks]; exact hF.index q hq ((mem_syncIssued hall .genIndex rfl).1 hm)
  slot p hp q i hl := absurd hl (getLast?_syncIssued hall hp q i)
  slot_inj p hp _ _ q i hl := absurd hl (getLast?_syncIssued hall hp q i)
  stored q hq i := by
    have hold : c.pendSlots w ds q i = [] := pendSlots_eq_nil fun p hp => by
      obtain ⟨op', t, hr, hc⟩ := hall p hp
      exact hS.not_pending_of_head hp hr
        (BuildOp.isPut_eq_false_of_isFill (BuildOp.isFill_eq_false_of_isCollective hc)) q i
    have := hF.stored q hq i
    rw [hold] at this
    rw [pendSlots_eq_nil fun p hp => getLast?_syncIssued hall hp q i]
    simpa only [slots, issued_syncIssued hall (.fetchInc q i) rfl, putVals, countP_isPut_syncIssued hall,
      syncWorld_ranks] using this

end Sync

/-! ### Whole runs -/

theorem Filled.run (hA : c.Aligned) (hE : c.EdgesValid) {w : BuildWorld} {ds : Nat → List BuildOp}
    (hS : c.Staged w ds) (hF : c.Filled w ds) :
    ∀ evs, ∃ ds', c.Staged (buildRun c w evs) ds' ∧ c.Filled (buildRun c w evs) ds' := by
  intro evs
  induction evs generalizing w ds with
  | nil => exact ⟨ds, hS, hF⟩
  | cons e evs ih =>
    rw [buildRun, List.foldl_cons]
    rcases buildStep_cases w e with he | ⟨pe, op, t, hpe, hr, hop, he⟩ | ⟨hall, he⟩ <;> rw [he]
    · exact ih hS hF
    · exact ih (hS.act hpe hr hop) (hF.act hA hE hS hpe hr)
    · exact ih (hS.sync hall) (hF.sync hall hS)

theorem Staged.eq_ops_of_done {w : BuildWorld} {ds : Nat → List BuildOp} (hS : c.Staged w ds)
    (hdone : ∀ p < c.vp.npes, (w.ranks p).rest = []) {p : Nat} (hp : p < c.vp.npes) : ds p = c.ops p := by
  rw [hS.split p hp, hdone p hp, List.append_nil]

theorem Filled.index_of_done {w : BuildWorld} {ds : Nat → List BuildOp} (hS : c.Staged w ds)
    (hF : c.Filled w ds) (hdone : ∀ p < c.vp.npes, (w.ranks p).rest = []) {q : Nat}
    (hq : q < c.vp.npes) : (w.ranks q).index = c.base q :=
  hF.index _ hq (by
    rw [hS.eq_ops_of_done hdone hq, ← List.count_pos_iff,
      c.count_ops_eq_one (show BuildOp.genIndex.isStage = true from rfl)]
    omega)

theorem Filled.outNeighOf_perm {w : BuildWorld} {ds : Nat → List BuildOp} (hS : c.Staged w ds)
    (hF : c.Filled w ds) (hdone : ∀ p < c.vp.npes, (w.ranks p).rest = []) {x : Nat} (hx : x < c.vp.n) :
    (outNeighOf c w x).Perm (c.neighList x) := by
  have hds : ∀ p < c.vp.npes, ds p = c.ops p := fun p hp => hS.eq_ops_of_done hdone hp
  have hq := c.vp.recv_lt x
  have hi := lt_of_lt_of_le (c.vp.localPos_lt_width hx) (c.vp.width_le_maxWidth _)
  have hidx := hF.index_of_done hS hdone hq
  have hfetch : c.issued ds (.fetchInc (c.vp.recv x) (c.vp.localPos x)) =
      c.deg (c.vp.recv x) (c.vp.localPos x) :=
    Finset.sum_congr rfl fun p hp => by rw [hds p (Finset.mem_range.1 hp), count_fetchInc_ops]
  have hpend : c.pendSlots w ds (c.vp.recv x) (c.vp.localPos x) = [] :=
    pendSlots_eq_nil fun p hp => by rw [hds p hp, getLast?_ops]; simp
  have hput : c.putVals ds (c.vp.recv x) (c.vp.localPos x) = c.neighList x :=
    List.flatMap_congr fun p hp => by
      rw [hds p (List.mem_range.1 hp), countP_isPut_ops, List.take_length, triples, filterMap_fillTriples]
  have := hF.stored _ hq (c.vp.localPos x)
  rw [hpend, hput, List.filter_eq_self.2 fun _ _ => by simp, slots, hfetch] at this
  simpa only [outNeighOf, hidx, base_succ hi, Nat.add_sub_cancel_left] using this

/-- Under every schedule that lets every rank return, vertex `x`'s cells hold exactly the endpoints
the edge list files under `x`, and `SquishCSR` makes them its strictly increasing list. -/
theorem makeCsr_builds_neighbours (hA : c.Aligned) (hE : c.EdgesValid) {evs : List BuildEvent}
    (hdone : ∀ p < c.vp.npes, ((buildRun c (buildInit c) evs).ranks p).rest = []) {x : Nat}
    (hx : x < c.vp.n) :
    (outNeighOf c (buildRun c (buildInit c) evs) x).Perm (c.neighList x) ∧
      (squishNeigh x (outNeighOf c (buildRun c (buildInit c) evs) x)).Pairwise (· < ·) ∧
      ∀ y, y ∈ squishNeigh x (outNeighOf c (buildRun c (buildInit c) evs) x) ↔ y ∈ c.neighList x ∧ y ≠ x := by
  obtain ⟨ds, hS, hF⟩ := Filled.run hA hE staged_init c.filled_init evs
  have hperm := hF.outNeighOf_perm hS hdone hx
  exact ⟨hperm, squishNeigh_sorted _ _, fun y => by rw [mem_squishNeigh, hperm.mem_iff]⟩

end BuildCfg

/-- Thirty rounds of `edgeBuild`: each rank's next operation, then the collective. -/
def edgeRounds : List BuildEvent := (List.replicate 30 [.act 0, .act 1, .sync]).flatten

set_option maxRecDepth 20000 in
theorem makeCsr_builds_neighbours_edgeBuild : edgeBuild.Aligned ∧ edgeBuild.EdgesValid ∧
    (∀ p < edgeBuild.vp.npes, ((buildRun edgeBuild (buildInit edgeBuild) edgeRounds).ranks p).rest = []) ∧
    0 < edgeBuild.vp.n ∧
    (outNeighOf edgeBuild (buildRun edgeBuild (buildInit edgeBuild) edgeRounds) 0).Perm (edgeBuild.neighList 0) ∧
    (squishNeigh 0 (outNeighOf edgeBuild (buildRun edgeBuild (buildInit edgeBuild) edgeRounds) 0)).Pairwise
      (· < ·) ∧
    ∀ y, y ∈ squishNeigh 0 (outNeighOf edgeBuild (buildRun edgeBuild (buildInit edgeBuild) edgeRounds) 0) ↔
      y ∈ edgeBuild.neighList 0 ∧ y ≠ 0 := by
  have hdone : ∀ p < edgeBuild.vp.npes,
      ((buildRun edgeBuild (buildInit edgeBuild) edgeRounds).ranks p).rest = [] := by decide
  exact ⟨by decide, by decide, hdone, by decide,
    BuildCfg.makeCsr_builds_neighbours (by decide) (by decide) hdone (by decide)⟩

/-- `MakeCSR` and `SquishCSR` build the same graph however the edge list is split. -/
theorem makeCsr_split_independent {c c' : BuildCfg} (hn : c.vp.n = c'.vp.n)
    (hsym : c.symmetrize = c'.symmetrize) (htr : c.transpose = c'.transpose)
    (hel : c.allEdges.Perm c'.allEdges) (hA : c.Aligned) (hA' : c'.Aligned) (hE : c.EdgesValid)
    (hE' : c'.EdgesValid) {evs evs' : List BuildEvent}
    (hdone : ∀ p < c.vp.npes, ((buildRun c (buildInit c) evs).ranks p).rest = [])
    (hdone' : ∀ p < c'.vp.npes, ((buildRun c' (buildInit c') evs').ranks p).rest = []) {x : Nat}
    (hx : x < c.vp.n) :
    squishNeigh x (outNeighOf c (buildRun c (buildInit c) evs) x) =
      squishNeigh x (outNeighOf c' (buildRun c' (buildInit c') evs') x) := by
  obtain ⟨ds, hS, hF⟩ := BuildCfg.Filled.run hA hE BuildCfg.staged_init c.filled_init evs
  obtain ⟨ds', hS', hF'⟩ := BuildCfg.Filled.run hA' hE' BuildCfg.staged_init c'.filled_init evs'
  have h := hF.outNeighOf_perm hS hdone hx
  have h' := hF'.outNeighOf_perm hS' hdone' (hn ▸ hx)
  have hlist : (c.neighList x).Perm (c'.neighList x) := by
    rw [c.neighList_eq_flatMap, c'.neighList_eq_flatMap, hsym, htr]
    exact hel.flatMap_right _
  have hsorted := squishNeigh_sorted x (outNeighOf c (buildRun c (buildInit c) evs) x)
  have hsorted' := squishNeigh_sorted x (outNeighOf c' (buildRun c' (buildInit c') evs') x)
  refine List.eq_of_perm_of_sorted ((List.perm_ext_iff_of_nodup (hsorted.imp ne_of_lt)
    (hsorted'.imp ne_of_lt)).2 fun y => ?_) hsorted hsorted'
  rw [mem_squishNeigh, mem_squishNeigh, h.mem_iff, h'.mem_iff, hlist.mem_iff]

/-- `MakeCSR` on one rank holding both edges of `edgeBuild`. -/
def edgeSolo : BuildCfg := ⟨⟨2, 1, by decide⟩, false, false, fun _ => [(0, 1), (1, 0)]⟩

/-- Thirty rounds of `edgeSolo`: its next operation, then the collective. -/
def soloRounds : List BuildEvent := (List.replicate 30 [.act 0, .sync]).flatten

set_option maxRecDepth 20000 in
theorem makeCsr_split_independent_edgeSolo : edgeBuild.vp.n = edgeSolo.vp.n ∧
    edgeBuild.symmetrize = edgeSolo.symmetrize ∧ edgeBuild.transpose = edgeSolo.transpose ∧
    edgeBuild.allEdges.Perm edgeSolo.allEdges ∧ edgeBuild.Aligned ∧ edgeSolo.Aligned ∧
    edgeBuild.EdgesValid ∧ edgeSolo.EdgesValid ∧
    (∀ p < edgeBuild.vp.npes, ((buildRun edgeBuild (buildInit edgeBuild) edgeRounds).ranks p).rest = []) ∧
    (∀ p < edgeSolo.vp.npes, ((buildRun edgeSolo (buildInit edgeSolo) soloRounds).ranks p).rest = []) ∧
    0 < edgeBuild.vp.n ∧
    squishNeigh 0 (outNeighOf edgeBuild (buildRun edgeBuild (buildInit edgeBuild) edgeRounds) 0) =
      squishNeigh 0 (outNeighOf edgeSolo (buildRun edgeSolo (buildInit edgeSolo) soloRounds) 0) := by
  have hdone : ∀ p < edgeBuild.vp.npes,
      ((buildRun edgeBuild (buildInit edgeBuild) edgeRounds).ranks p).rest = [] := by decide
  have hdone' : ∀ p < edgeSolo.vp.npes,
      ((buildRun edgeSolo (buildInit edgeSolo) soloRounds).ranks p).rest = [] := by decide
  have hel : edgeBuild.allEdges.Perm edgeSolo.allEdges := by decide
  exact ⟨rfl, rfl, rfl, hel, by decide, by decide, by decide, by decide, hdone, hdone', by decide,
    makeCsr_split_independent (show edgeBuild.vp.n = edgeSolo.vp.n from rfl) rfl rfl hel (by decide)
      (by decide) (by decide) (by decide) hdone hdone' (by decide)⟩

end DMM
