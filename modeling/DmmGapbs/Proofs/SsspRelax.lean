import DmmGapbs.Proofs.SsspInvariant

/-! What `RelaxEdges` guarantees under every interleaving of the ranks' gets and
compare-and-swaps. Only a winning compare-and-swap writes `dist`, and only downwards; the
values are walk weights; an edge, once done, stays relaxed against the `dist[u]` that was read
for it; and the winner queues the vertex in the bin of its new distance. -/

namespace DMM

open WGraph

variable {c : SsspCfg} {w w' : SsspWorld}

/-- `(v, dist[u] + w)` of the edge a rank is relaxing, `dist[u]` as read. -/
def Pc.newDist (d : Nat → Nat) : Pc → Option (Nat × Nat)
  | .readU u x wt _ _ _ => some (x, d u + wt)
  | .cas _ x _ _ nd _ _ | .reread _ x _ nd _ _ => some (x, nd)
  | _ => none

theorem SsspRank.push_bins_self (r : SsspRank) (b v : Nat) :
    (r.push b v).bins b = r.bins b ++ [v] := by
  simp [SsspRank.push]

theorem ssspStep_act {pe : Nat} (hs : ssspStep c w (.act pe) = some w') :
    pe < (c.npes : Nat) ∧ ((w.ranks pe).pc = .reserve ∧ w' = w.reserve pe ∨
      (w.ranks pe).pc.active ∧
        w' = { dist := (rankStep c pe (w.ranks pe) w.dist).2,
               ranks := Function.update w.ranks pe (rankStep c pe (w.ranks pe) w.dist).1 }) := by
  simp only [ssspStep] at hs
  split_ifs at hs with hpe
  refine ⟨hpe, ?_⟩
  cases hpc : (w.ranks pe).pc <;> simp only [hpc, Option.some.injEq, reduceCtorEq] at hs <;>
    first | exact .inl ⟨rfl, hs.symm⟩ | exact .inr ⟨rfl, hs.symm⟩

theorem ssspStep_sync_dist (hs : ssspStep c w .sync = some w') : w'.dist = w.dist := by
  simp only [ssspStep] at hs
  split_ifs at hs <;> simp only [Option.some.injEq, reduceCtorEq] at hs <;> subst hs <;> simp

section Move

variable {pe : Nat} {r r' : SsspRank} {d d' : Nat → Nat} {L : Nat}

theorem RankMove.dist_le (hm : RankMove c pe r d r' d') (hok : r.pc.Ok c d L) (v : Nat) :
    d' v ≤ d v := by
  rcases hm.write hok with rfl | ⟨x, nd, hlt, -, -, -, rfl⟩
  · exact le_rfl
  · rw [Function.update_apply]; split_ifs with h
    · subst h; exact hlt.le
    · exact le_rfl

theorem RankMove.newDist_le (hm : RankMove c pe r d r' d') (hok : r.pc.Ok c d L) {x t : Nat}
    (ht : r.pc.newDist d = some (x, t)) (hdone : ∃ u es ret, r'.pc = .edge u es ret) :
    d' x ≤ t := by
  cases hm with
  | readSkip hpc hn =>
    rw [hpc] at hok ht
    simp only [Pc.newDist, Option.some.injEq, Prod.mk.injEq] at ht
    obtain ⟨rfl, rfl⟩ := ht
    have := hok.2.1; omega
  | casWin hpc =>
    rw [hpc] at ht
    simp only [Pc.newDist, Option.some.injEq, Prod.mk.injEq] at ht
    obtain ⟨rfl, rfl⟩ := ht
    rw [Function.update_same]
  | rereadSkip hpc hn =>
    rw [hpc] at ht
    simp only [Pc.newDist, Option.some.injEq, Prod.mk.injEq] at ht
    obtain ⟨rfl, rfl⟩ := ht
    omega
  | readCas | casLose | rereadCas => obtain ⟨_, _, _, h⟩ := hdone; cases h
  | scanRelax hpc | scanSkip hpc | scanEnd hpc | edgeEndScan hpc | edgeEndDrain hpc | edgeRead hpc
    | drainCopy hpc | drainEnd hpc | drainNext hpc => rw [hpc] at ht; cases ht

theorem RankMove.queued (hm : RankMove c pe r d r' d') {v : Nat} (hv : d' v < d v) :
    r'.bins (d' v / c.delta) = r.bins (d' v / c.delta) ++ [v] := by
  rcases hm.dist_cases with rfl | ⟨u, x, wt, old, nd, es, ret, -, -, rfl, rfl⟩
  · exact absurd hv (lt_irrefl _)
  · have hx : v = x := by by_contra hne; rw [Function.update_noteq hne] at hv; exact lt_irrefl _ hv
    subst hx
    rw [Function.update_same]
    exact SsspRank.push_bins_self _ _ _

end Move

theorem ssspStep_dist_le (h : Inv c w) {e : SsspEvent} (hs : ssspStep c w e = some w') (v : Nat) :
    w'.dist v ≤ w.dist v := by
  cases e with
  | sync => rw [ssspStep_sync_dist hs]
  | act pe =>
    obtain ⟨hpe, ⟨-, rfl⟩ | ⟨hact, rfl⟩⟩ := ssspStep_act hs
    · rw [SsspWorld.reserve_dist]
    · exact (rankStep_move w.dist hact).dist_le (h.pc pe hpe) v

theorem ssspRun_dist_le (hs : c.source < c.g.numNodes) :
    ∀ (evs : List SsspEvent) {w w' : SsspWorld}, SsspReach c w → ssspRun c w evs = some w' →
      ∀ v, w'.dist v ≤ w.dist v
  | [], _, _, _, hr, v => by cases hr; exact le_rfl
  | e :: evs, w, w', h, hr, v => by
    simp only [ssspRun, Option.bind_eq_some] at hr
    obtain ⟨w1, h1, h2⟩ := hr
    exact (ssspRun_dist_le hs evs (.step h h1) h2 v).trans (ssspStep_dist_le (inv_of_reach hs h) h1 v)

/-! ### One call of `RelaxEdges` -/

/-- In the run `evs` from `w`, rank `pe` read `d` for `dist[u]` to relax the edge `(u, v, wt)`. -/
def ReadIn (c : SsspCfg) (w : SsspWorld) (evs : List SsspEvent) (pe u v wt d : Nat) : Prop :=
  ∃ pre post wk old es ret, evs = pre ++ .act pe :: post ∧ ssspRun c w pre = some wk ∧
    (wk.ranks pe).pc = .readU u v wt old es ret ∧ wk.dist u = d

namespace Pc

/-- The out-edges the `RelaxEdges(u)` in progress has not finished, the current one included. -/
def todo (u : Nat) : Pc → Option (List (Nat × Nat))
  | .edge u' es _ => if u' = u then some es else none
  | .readU u' x wt _ es _ | .cas u' x wt _ _ es _ | .reread u' x wt _ es _ =>
    if u' = u then some ((x, wt) :: es) else none
  | _ => none

/-- `(v, wt, new_dist)` of the compare-and-swap the `RelaxEdges(u)` in progress is to make. -/
def tentative (u : Nat) : Pc → Option (Nat × Nat × Nat)
  | .cas u' x wt _ nd _ _ | .reread u' x wt nd _ _ => if u' = u then some (x, wt, nd) else none
  | _ => none

end Pc

/-- Rank `pe`'s `RelaxEdges(u)` after the run `evs`: every finished edge is relaxed against the
`dist[u]` read for it. -/
structure CallInv (c : SsspCfg) (w : SsspWorld) (pe u : Nat) (evs : List SsspEvent) (p : Pc)
    (d : Nat → Nat) : Prop where
  done : ∀ todo, p.todo u = some todo → ∃ done, done ++ todo = c.g.outNeigh u ∧
    ∀ e ∈ done, ∃ r, ReadIn c w evs pe u e.1 e.2 r ∧ d e.1 ≤ r + e.2
  tentative : ∀ x wt nd, p.tentative u = some (x, wt, nd) → ∃ r, ReadIn c w evs pe u x wt r ∧ nd = r + wt

section Call

variable {pe u : Nat} {evs : List SsspEvent} {p p' : Pc} {d d' : Nat → Nat}

theorem ReadIn.snoc {v wt r : Nat} (h : ReadIn c w evs pe u v wt r) (e : SsspEvent) :
    ReadIn c w (evs ++ [e]) pe u v wt r := by
  obtain ⟨pre, post, wk, old, es, ret, rfl, h1, h2, h3⟩ := h
  exact ⟨pre, post ++ [e], wk, old, es, ret, by simp, h1, h2, h3⟩

theorem readIn_last (hrun : ssspRun c w evs = some w') {v wt old : Nat} {es : List (Nat × Nat)}
    {ret : Ret} (hpc : (w'.ranks pe).pc = .readU u v wt old es ret) :
    ReadIn c w (evs ++ [.act pe]) pe u v wt (w'.dist u) :=
  ⟨evs, [], w', old, es, ret, rfl, hrun, hpc, rfl⟩

namespace CallInv

theorem idle (ht : p.todo u = none) (hn : p.tentative u = none) : CallInv c w pe u evs p d :=
  ⟨fun _ h => by simp [ht] at h, fun _ _ _ h => by simp [hn] at h⟩

theorem entry {x : Nat} {ret : Ret} : CallInv c w pe u evs (.edge x (c.g.outNeigh x) ret) d := by
  refine ⟨fun todo h => ?_, fun _ _ _ h => by simp [Pc.tentative] at h⟩
  simp only [Pc.todo, Option.ite_none_right_eq_some, Option.some.injEq] at h
  obtain ⟨rfl, rfl⟩ := h
  exact ⟨[], rfl, by simp⟩

theorem keep (h : CallInv c w pe u evs p d) (hd : ∀ v, d' v ≤ d v) (e : SsspEvent)
    (ht : p'.todo u = p.todo u) (hn : p'.tentative u = p.tentative u) :
    CallInv c w pe u (evs ++ [e]) p' d' := by
  refine ⟨fun todo hp => ?_, fun x wt nd hp => ?_⟩
  · obtain ⟨done, hdone, hrel⟩ := h.done todo (ht ▸ hp)
    exact ⟨done, hdone, fun e' he => (hrel e' he).imp fun _ hr => ⟨hr.1.snoc e, (hd _).trans hr.2⟩⟩
  · exact (h.tentative x wt nd (hn ▸ hp)).imp fun _ hr => ⟨hr.1.snoc e, hr.2⟩

theorem finish (h : CallInv c w pe u evs p d) (hd : ∀ v, d' v ≤ d v) {e : SsspEvent} {x wt : Nat}
    {es : List (Nat × Nat)} {ret : Ret} (hp : p.todo u = some ((x, wt) :: es))
    (hx : ∃ r, ReadIn c w (evs ++ [e]) pe u x wt r ∧ d' x ≤ r + wt) :
    CallInv c w pe u (evs ++ [e]) (.edge u es ret) d' := by
  obtain ⟨done, hdone, hrel⟩ := h.done _ hp
  refine ⟨fun todo ht => ?_, fun _ _ _ ht => by simp [Pc.tentative] at ht⟩
  simp only [Pc.todo, ↓reduceIte, Option.some.injEq] at ht
  subst ht
  refine ⟨done ++ [(x, wt)], by simpa using hdone, fun e' he => ?_⟩
  rcases List.mem_append.1 he with he | he
  · obtain ⟨r, hr, hle⟩ := hrel e' he
    exact ⟨r, hr.snoc e, (hd _).trans hle⟩
  · rw [List.mem_singleton.1 he]
    exact hx

theorem edge_of_eq {e : SsspEvent} {u' : Nat} {es : List (Nat × Nat)} {ret : Ret}
    (hu : u' = u → CallInv c w pe u (evs ++ [e]) (.edge u es ret) d') :
    CallInv c w pe u (evs ++ [e]) (.edge u' es ret) d' := by
  by_cases h : u' = u
  · subst h; exact hu rfl
  · exact idle (by simp [Pc.todo, h]) rfl

theorem move {L : Nat} {r' : SsspRank} (h : CallInv c w pe u evs (w'.ranks pe).pc w'.dist)
    (hrun : ssspRun c w evs = some w') (hm : RankMove c pe (w'.ranks pe) w'.dist r' d')
    (hok : (w'.ranks pe).pc.Ok c w'.dist L) : CallInv c w pe u (evs ++ [.act pe]) r'.pc d' := by
  have hd := hm.dist_le hok
  have hnd := fun {x t : Nat} => @RankMove.newDist_le c pe _ _ _ _ L hm hok x t
  cases hm with
  | scanRelax | drainNext => exact entry
  | scanSkip | scanEnd | edgeEndScan | edgeEndDrain | drainCopy | drainEnd => exact idle rfl rfl
  | edgeRead hpc | casLose hpc | rereadCas hpc => rw [hpc] at h; exact h.keep hd _ rfl rfl
  | @readCas u' x wt old es ret hpc =>
    rw [hpc] at h
    refine ⟨(h.keep hd _ rfl rfl).done, fun x' wt' nd ht => ?_⟩
    simp only [Pc.tentative, Option.ite_none_right_eq_some, Option.some.injEq, Prod.mk.injEq] at ht
    obtain ⟨rfl, rfl, rfl, rfl⟩ := ht
    exact ⟨_, readIn_last hrun hpc, rfl⟩
  | @readSkip u' x wt old es ret hpc =>
    rw [hpc] at h
    refine edge_of_eq fun hu => ?_
    subst hu
    exact h.finish hd (by simp [Pc.todo]) ⟨_, readIn_last hrun hpc, hnd (by rw [hpc]; rfl) ⟨_, _, _, rfl⟩⟩
  | @casWin u' x wt old nd es ret hpc | @rereadSkip u' x wt nd es ret hpc =>
    rw [hpc] at h
    refine edge_of_eq fun hu => ?_
    subst hu
    obtain ⟨r, hr, rfl⟩ := h.tentative x wt nd (by simp [Pc.tentative])
    exact h.finish hd (by simp [Pc.todo]) ⟨r, hr.snoc _, hnd (by rw [hpc]; rfl) ⟨_, _, _, rfl⟩⟩

theorem of_sync (hs : ssspStep c w' .sync = some w'') : CallInv c w pe u evs (w''.ranks pe).pc d := by
  simp only [ssspStep] at hs
  split_ifs at hs <;> simp only [Option.some.injEq, reduceCtorEq] at hs <;> subst hs
  · exact idle rfl rfl
  · exact idle rfl rfl
  · rw [SsspWorld.finish_pc]; split_ifs <;> exact idle rfl rfl

theorem step (hi : Inv c w') (h : CallInv c w pe u evs (w'.ranks pe).pc w'.dist)
    (hrun : ssspRun c w evs = some w') {e : SsspEvent} (hs : ssspStep c w' e = some w'') :
    CallInv c w pe u (evs ++ [e]) (w''.ranks pe).pc w''.dist := by
  cases e with
  | sync => exact of_sync hs
  | act q =>
    obtain ⟨hq, ⟨-, rfl⟩ | ⟨hact, rfl⟩⟩ := ssspStep_act hs
    · rw [SsspWorld.reserve_pc, SsspWorld.reserve_dist]
      split_ifs with hqe
      · exact idle rfl rfl
      · exact h.keep (fun _ => le_rfl) _ rfl rfl
    · have hm := @rankStep_move c q (w'.ranks q) w'.dist hact
      by_cases hqe : q = pe
      · subst hqe
        simpa using h.move hrun hm (hi.pc q hq)
      · simpa [Function.update_noteq (Ne.symm hqe)] using
          h.keep (hm.dist_le (hi.pc q hq)) (.act q) rfl rfl

end CallInv

theorem callInv_run (hs : c.source < c.g.numNodes) :
    ∀ (evs' evs : List SsspEvent) {w₁ w₂ : SsspWorld}, SsspReach c w₁ → ssspRun c w evs = some w₁ →
      CallInv c w pe u evs (w₁.ranks pe).pc w₁.dist → ssspRun c w₁ evs' = some w₂ →
      CallInv c w pe u (evs ++ evs') (w₂.ranks pe).pc w₂.dist
  | [], evs, _, _, _, _, h, hr => by cases hr; simpa using h
  | e :: evs', evs, w₁, w₂, hr₁, hrun, h, hr => by
    simp only [ssspRun, Option.bind_eq_some] at hr
    obtain ⟨w₃, h1, h2⟩ := hr
    have hrun' : ssspRun c w (evs ++ [e]) = some w₃ := by simp [ssspRun_append, hrun, ssspRun, h1]
    simpa using callInv_run hs evs' (evs ++ [e]) (.step hr₁ h1) hrun'
      (h.step (inv_of_reach hs hr₁) hrun h1) h2

end Call

/-- The `RelaxEdges` contract in a state `w` of the machine. -/
structure RelaxContract (c : SsspCfg) (w : SsspWorld) : Prop where
  /-- No event raises a distance. -/
  mono : ∀ e w', ssspStep c w e = some w' → ∀ v, w'.dist v ≤ w.dist v
  /-- Every finite distance is the weight of a walk from the source. -/
  walk : ∀ v, w.dist v < kDistInf → Walk c.g c.source v (w.dist v)
  /-- Once a step ends an edge `(u, v, w)` read with `d = dist[u]`, `dist[v] ≤ d + w` stays. -/
  done : ∀ pe w₁, ssspStep c w (.act pe) = some w₁ →
    ∀ x t, (w.ranks pe).pc.newDist w.dist = some (x, t) → (∃ u es ret, (w₁.ranks pe).pc = .edge u es ret) →
    ∀ evs w₂, ssspRun c w₁ evs = some w₂ → w₂.dist x ≤ t
  /-- When a `RelaxEdges(u)` started in `w` returns, each out-edge is relaxed against its read. -/
  call : ∀ pe u ret ret' evs w₂, (w.ranks pe).pc = .edge u (c.g.outNeigh u) ret →
    ssspRun c w evs = some w₂ → (w₂.ranks pe).pc = .edge u [] ret' →
    ∀ e ∈ c.g.outNeigh u, ∃ d, ReadIn c w evs pe u e.1 e.2 d ∧ w₂.dist e.1 ≤ d + e.2
  /-- A swap lowering `dist[v]` to `d` appends `v` to its rank's `local_bins[d / delta]`. -/
  queued : ∀ e w', ssspStep c w e = some w' → ∀ v, w'.dist v < w.dist v →
    ∃ pe < (c.npes : Nat), e = .act pe ∧
      (w'.ranks pe).bins (w'.dist v / c.delta) = (w.ranks pe).bins (w'.dist v / c.delta) ++ [v]

/-- Every reachable state, under any interleaving of any number of ranks, meets the contract. -/
theorem relaxEdges_contract (hs : c.source < c.g.numNodes) (hr : SsspReach c w) :
    RelaxContract c w := by
  have h := inv_of_reach hs hr
  refine ⟨fun _ _ he => ssspStep_dist_le h he, fun v => (h.sound v).2, ?_, ?_, ?_⟩
  · intro pe w₁ hs₁ x t ht hdone evs w₂ hrun
    refine (ssspRun_dist_le hs evs (.step hr hs₁) hrun x).trans ?_
    obtain ⟨hpe, ⟨hpc, -⟩ | ⟨hact, rfl⟩⟩ := ssspStep_act hs₁
    · rw [hpc] at ht; cases ht
    · have hm := @rankStep_move c pe (w.ranks pe) w.dist hact
      refine hm.newDist_le (h.pc pe hpe) ht ?_
      simpa using hdone
  · intro pe u ret ret' evs w₂ hpc hrun hend e he
    have hI : CallInv c w pe u evs (w₂.ranks pe).pc w₂.dist :=
      callInv_run hs evs [] hr rfl (hpc ▸ CallInv.entry) hrun
    obtain ⟨done, hdone, hrel⟩ := hI.done [] (by rw [hend]; simp [Pc.todo])
    rw [List.append_nil] at hdone
    exact hrel e (hdone ▸ he)
  · intro e w' he v hv
    cases e with
    | sync => rw [ssspStep_sync_dist he] at hv; exact absurd hv (lt_irrefl _)
    | act pe =>
      obtain ⟨hpe, ⟨-, rfl⟩ | ⟨hact, rfl⟩⟩ := ssspStep_act he
      · rw [SsspWorld.reserve_dist] at hv; exact absurd hv (lt_irrefl _)
      · refine ⟨pe, hpe, rfl, ?_⟩
        simpa using (@rankStep_move c pe (w.ranks pe) w.dist hact).queued hv

/-- The unit square `0 → 1 → 3`, `0 → 2 → 3` on two ranks with `delta = 1`. -/
def raceSquare : SsspCfg := ⟨WGraph.ofAdj [[(1, 1), (2, 1)], [(3, 1)], [(3, 1)], []], 0, 1, 2⟩

/-- Both ranks read `dist[3] = kDistInf` and stand at their compare-and-swaps on it. -/
def casRace : List SsspEvent :=
  List.replicate 9 (.act 1) ++ [.act 0, .sync, .act 1, .act 0, .sync, .act 1, .act 0, .sync] ++
    List.replicate 3 (.act 1) ++ List.replicate 3 (.act 0)

theorem relaxEdges_contract_casRace : raceSquare.source < raceSquare.g.numNodes ∧ ∃ w,
    SsspReach raceSquare w ∧ (w.ranks 0).pc = .cas 1 3 1 kDistInf 2 [] (.scan 0) ∧
    (w.ranks 1).pc = .cas 2 3 1 kDistInf 2 [] (.scan 0) ∧ RelaxContract raceSquare w := by
  have key : (ssspRun raceSquare (ssspInit raceSquare) casRace).map (fun w =>
      decide ((w.ranks 0).pc = .cas 1 3 1 kDistInf 2 [] (.scan 0) ∧
        (w.ranks 1).pc = .cas 2 3 1 kDistInf 2 [] (.scan 0))) = some true := by decide
  obtain ⟨w, hr, hP⟩ := Option.map_eq_some'.1 key
  obtain ⟨hpc0, hpc1⟩ := of_decide_eq_true hP
  have hw := SsspReach.of_run casRace .init hr
  exact ⟨by decide, w, hw, hpc0, hpc1, relaxEdges_contract (by decide) hw⟩

end DMM
