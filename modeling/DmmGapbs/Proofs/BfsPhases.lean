import DmmGapbs.Proofs.BfsLevels
import DmmGapbs.Spec.Bfs
import Mathlib.Data.List.GetD

/-! `DOBFS`'s two directions on one rank, each as a phase of the level-synchronous BFS of
`BfsLevels`. With one rank the `parent` slice is the whole array, so `BUStep` reads no cell
past it: from `parent` at level `k` and a `front` that holds level `k` and only visited
vertices, it wakes exactly level `k + 1`, each vertex with an in-neighbour on level `k`, and
`next` and `awake_count` are that level and its size. The claiming loop of `SHMEM_TDStep`,
walking the out-edges of the window, claims every vertex of level `k + 1` exactly once, with
the first frontier vertex that reaches it as parent. Both need `in_neigh` to be the transpose
of `out_neigh`, as the graph builder makes it. -/

namespace DMM

open Graph

/-- `in_neigh` is the transpose of `out_neigh`: `MakeGraph`'s inverse CSR. -/
def Graph.Transposed (g : Graph) : Prop := ∀ u v, v ∈ g.inNeigh u ↔ u ∈ g.outNeigh v

theorem Graph.ofAdj_transposed {adj : List (List Nat)}
    (h : ∀ u < adj.length, ∀ v ∈ adj.getD u [], v < adj.length ∧ u ∈ adj.getD v []) :
    (Graph.ofAdj adj).Transposed := by
  have hlt : ∀ u v, v ∈ adj.getD u [] → u < adj.length := fun u v hv => by
    by_contra hu
    rw [List.getD_eq_default _ _ (not_lt.1 hu)] at hv
    exact List.not_mem_nil _ hv
  intro u v
  simp only [Graph.ofAdj]
  exact ⟨fun hv => (h u (hlt u v hv) v hv).2, fun hu => (h v (hlt v u hu) u hu).2⟩

/-- The path `0 - 1 - 2` on one rank, searched from `0`. -/
def pathThree : BfsCfg := ⟨Graph.ofAdj [[1], [0, 2], [1]], 0, 1, 15, 18, fun _ _ => 0, fun _ => 0⟩

theorem pathThree_valid : pathThree.g.Valid := ⟨by decide, by decide⟩

theorem pathThree_transposed : pathThree.g.Transposed := Graph.ofAdj_transposed (by decide)

def pathThreeParent (i : Nat) : Int := if i = 0 then 0 else -1

theorem pathThreeParent_levelInv : LevelInv pathThree.g pathThree.source 0 pathThreeParent :=
  levelInv_zero rfl (by decide)

theorem foldl_range_induct {α : Type} (F : α → Nat → α) (a : α) (I : Nat → α → Prop)
    (h0 : I 0 a) (hs : ∀ m b, I m b → I (m + 1) (F b m)) : ∀ m, I m ((List.range m).foldl F a)
  | 0 => h0
  | m + 1 => by
    rw [List.range_succ, List.foldl_append, List.foldl_cons, List.foldl_nil]
    exact hs m _ (foldl_range_induct F a I h0 hs m)

namespace BfsCfg

variable (c : BfsCfg)

/-! ### One rank owns every vertex -/

section One

variable {c} (h1 : (c.npes : Nat) = 1)
include h1

theorem vp_stop_of_one : c.vp.stop 0 = c.g.numNodes := by
  simp [Partition.stop, BfsCfg.vp, h1]

theorem vp_maxWidth_of_one : c.vp.maxWidth = c.g.numNodes := by
  simp [Partition.maxWidth, BfsCfg.vp, h1]

theorem td_isLocal_iff {v : Nat} : c.td.isLocal 0 v ↔ v < c.g.numNodes := by
  simp [TdCfg.isLocal, TdCfg.vp, Partition.start, Partition.stop, BfsCfg.td, h1]

end One

@[simp] theorem vp_start_zero : c.vp.start 0 = 0 := by simp [Partition.start]

@[simp] theorem td_vp_start_zero : c.td.vp.start 0 = 0 := by simp [Partition.start]

/-! ### The bottom-up step -/

/-- The in-neighbour `BUStep` gives `u`. -/
def buPick (parent : Nat → Int) (front : Nat → Bool) (u : Nat) : Option Nat :=
  if parent u < 0 then (c.g.inNeigh u).find? front else none

def buAfter (parent : Nat → Int) (front : Nat → Bool) (m : Nat) :
    (Nat → Int) × (Nat → Bool) × Int :=
  (fun x => if x < m then (c.buPick parent front x).elim (parent x) fun v => (v : Int)
    else parent x,
   fun x => decide (x < m) && (c.buPick parent front x).isSome,
   ((List.range m).filter fun x => (c.buPick parent front x).isSome).length)

variable {c} {parent : Nat → Int} {front : Nat → Bool} {m : Nat}

theorem buAfter_succ_none (hp : c.buPick parent front m = none) :
    c.buAfter parent front (m + 1) = c.buAfter parent front m := by
  simp only [buAfter, Prod.mk.injEq, List.range_succ, List.filter_append, hp]
  refine ⟨funext fun x => ?_, funext fun x => ?_, by simp [hp]⟩ <;>
    rcases eq_or_ne x m with rfl | hx <;> simp [hp, Nat.lt_succ_iff_lt_or_eq, *]

theorem buAfter_succ_some {v : Nat} (hp : c.buPick parent front m = some v) :
    c.buAfter parent front (m + 1) =
      (Function.update (c.buAfter parent front m).1 m v,
        Function.update (c.buAfter parent front m).2.1 m true, (c.buAfter parent front m).2.2 + 1) := by
  simp only [buAfter, Prod.mk.injEq, List.range_succ, List.filter_append, hp]
  refine ⟨funext fun x => ?_, funext fun x => ?_, by simp [hp]⟩ <;>
    rcases eq_or_ne x m with rfl | hx <;> simp [hp, Nat.lt_succ_iff_lt_or_eq, *]

variable (c) in
theorem buStep_eq (h : c.g.numNodes ≤ c.vp.maxWidth) (parent : Nat → Int) (front : Nat → Bool) :
    c.buStep parent front = some (c.buAfter parent front c.g.numNodes) := by
  rw [buStep, if_neg (not_lt.2 h)]
  congr 1
  refine foldl_range_induct _ _ (fun m b => b = c.buAfter parent front m) (by simp [buAfter]) ?_ _
  rintro m _ rfl
  have hm : (c.buAfter parent front m).1 m = parent m := by simp [buAfter]
  rw [hm]
  by_cases hneg : parent m < 0
  · cases hf : (c.g.inNeigh m).find? front with
    | none => simpa [hneg] using (buAfter_succ_none (by simp [buPick, hneg, hf])).symm
    | some v => simpa [hneg] using (buAfter_succ_some (by simp [buPick, hneg, hf])).symm
  · simpa [hneg] using (buAfter_succ_none (by simp [buPick, hneg])).symm

section BottomUp

variable {k : Nat} (htr : c.g.Transposed) (hL : LevelInv c.g c.source k parent)
  (hsub : ∀ x, front x = true → x < c.g.numNodes ∧ 0 ≤ parent x)
  (hsup : ∀ x, c.g.HopDist c.source x k → front x = true)
include htr hL hsub

theorem buPick_some {x v : Nat} (hx : x < c.g.numNodes) (hp : c.buPick parent front x = some v) :
    v ∈ c.g.inNeigh x ∧ c.g.HopDist c.source x (k + 1) ∧ c.g.HopDist c.source v k := by
  unfold buPick at hp
  split_ifs at hp with hneg
  have hv := List.mem_of_find?_eq_some hp
  obtain ⟨hvn, hvv⟩ := hsub v (List.find?_some hp)
  exact ⟨hv, hL.next_of_edge hvn hx hvv hneg ((htr x v).1 hv)⟩

include hsup

theorem buPick_isSome_iff {x : Nat} (hx : x < c.g.numNodes) :
    (c.buPick parent front x).isSome ↔ c.g.HopDist c.source x (k + 1) := by
  refine ⟨fun h => ?_, fun hd => ?_⟩
  · obtain ⟨v, hv⟩ := Option.isSome_iff_exists.1 h
    exact (buPick_some htr hL hsub hx hv).2.1
  · obtain ⟨p, hp, hpx⟩ := hd.exists_pred
    simp only [buPick, hL.neg_of_next hx hd, if_true, Option.isSome_iff_ne_none, ne_eq,
      List.find?_eq_none, not_forall, not_not]
    exact ⟨p, (htr x p).2 hpx, hsup p hp⟩

theorem buAfter_expand :
    Expand c.g c.source k parent (c.buAfter parent front c.g.numNodes).1 ∧
      (∀ x, (c.buAfter parent front c.g.numNodes).2.1 x = true ↔
        x < c.g.numNodes ∧ c.g.HopDist c.source x (k + 1)) ∧
      (c.buAfter parent front c.g.numNodes).2.2 =
        ((List.range c.g.numNodes).filter (c.buAfter parent front c.g.numNodes).2.1).length := by
  have hnone : ∀ x < c.g.numNodes, ¬c.g.HopDist c.source x (k + 1) →
      c.buPick parent front x = none := fun x hx hd =>
    Option.not_isSome_iff_eq_none.1 fun h => hd ((buPick_isSome_iff htr hL hsub hsup hx).1 h)
  refine ⟨⟨fun x hx hv => ?_, fun x hx _ hd => ?_, fun x hx hneg hd => ?_⟩, fun x => ?_, ?_⟩
  · simp [buAfter, hx, buPick, not_lt.2 hv]
  · obtain ⟨v, hv⟩ := Option.isSome_iff_exists.1 ((buPick_isSome_iff htr hL hsub hsup hx).2 hd)
    obtain ⟨hin, -, hvk⟩ := buPick_some htr hL hsub hx hv
    exact ⟨v, hin, by simp [buAfter, hx, hv], hvk⟩
  · simpa [buAfter, hx, hnone x hx hd] using hneg
  · by_cases hx : x < c.g.numNodes
    · simp [buAfter, hx, buPick_isSome_iff htr hL hsub hsup hx]
    · simp [buAfter, hx]
  · simp only [buAfter]
    congr 2
    exact List.filter_congr fun x hx => by simp [List.mem_range.1 hx]

/-- `BUStep` on one rank takes `parent` from level `k` to `k + 1`, with `next` exactly that level. -/
theorem buStep_next_level (h1 : (c.npes : Nat) = 1) (hs : c.source < c.g.numNodes) :
    ∃ parent' next awake, c.buStep parent front = some (parent', next, awake) ∧
      LevelInv c.g c.source (k + 1) parent' ∧
      (∀ x, next x = true ↔ x < c.g.numNodes ∧ c.g.HopDist c.source x (k + 1)) ∧
      awake = ((List.range c.g.numNodes).filter next).length := by
  obtain ⟨he, hnext, hawake⟩ := buAfter_expand htr hL hsub hsup
  exact ⟨_, _, _, buStep_eq c (vp_maxWidth_of_one h1).ge parent front, hL.expand hs he, hnext,
    hawake⟩

end BottomUp

theorem buStep_next_level_pathThree :
    ∃ parent' next awake, pathThree.buStep pathThreeParent (fun i => i = 0) =
      some (parent', next, awake) ∧ LevelInv pathThree.g pathThree.source 1 parent' ∧
      (∀ x, next x = true ↔ x < pathThree.g.numNodes ∧ pathThree.g.HopDist pathThree.source x 1) ∧
      awake = ((List.range pathThree.g.numNodes).filter next).length :=
  buStep_next_level pathThree_transposed pathThreeParent_levelInv
    (fun x hx => by simp only [decide_eq_true_eq] at hx; subst hx; decide)
    (fun x hx => by rw [hopDist_zero_iff.1 hx]; rfl) rfl (by decide)

/-! ### The top-down claiming loop -/

/-- The claiming loop after the edges `done`: each push was unvisited and took a done edge's tail. -/
structure Claimed (parent0 parent : Nat → Int) (done : List (Nat × Nat)) (pushed : List Nat) :
    Prop where
  fix : ∀ x, x ∉ pushed → parent x = parent0 x
  nodup : pushed.Nodup
  fresh : ∀ x ∈ pushed, parent0 x < 0 ∧ ∃ u, (u, x) ∈ done ∧ parent x = u
  cover : ∀ e ∈ done, 0 ≤ parent e.2

section Claimed

variable {parent0 : Nat → Int} {done : List (Nat × Nat)} {pushed : List Nat}

theorem claimed_nil (parent0 : Nat → Int) : Claimed parent0 parent0 [] [] :=
  ⟨fun _ _ => rfl, List.nodup_nil, by simp, by simp⟩

theorem Claimed.skip (h : Claimed parent0 parent done pushed) {e : Nat × Nat}
    (he : 0 ≤ parent e.2) : Claimed parent0 parent (done ++ [e]) pushed :=
  ⟨h.fix, h.nodup, fun x hx => let ⟨h0, u, hu, hp⟩ := h.fresh x hx
      ⟨h0, u, List.mem_append_left _ hu, hp⟩,
    fun e' he' => (List.mem_append.1 he').elim (h.cover e') fun h' => by
      rw [List.mem_singleton.1 h']; exact he⟩

theorem Claimed.claim (h : Claimed parent0 parent done pushed) {u v : Nat} (hv : parent v < 0) :
    Claimed parent0 (Function.update parent v u) (done ++ [(u, v)]) (pushed ++ [v]) := by
  have hvp : v ∉ pushed := fun hm => by
    obtain ⟨-, u', -, hu'⟩ := h.fresh v hm
    rw [hu'] at hv; exact absurd hv (not_lt.2 (Int.natCast_nonneg _))
  refine ⟨fun x hx => ?_, h.nodup.append (List.nodup_singleton v) (by simpa using hvp),
    fun x hx => ?_, fun e he => ?_⟩
  · simp only [List.mem_append, List.mem_singleton, not_or] at hx
    rw [Function.update_noteq hx.2]; exact h.fix x hx.1
  · rcases List.mem_append.1 hx with hx | hx
    · obtain ⟨h0, u', hu', hp⟩ := h.fresh x hx
      have hxv : x ≠ v := fun e => hvp (e ▸ hx)
      exact ⟨h0, u', List.mem_append_left _ hu', by rw [Function.update_noteq hxv, hp]⟩
    · obtain rfl := List.mem_singleton.1 hx
      exact ⟨h.fix x hvp ▸ hv, u, by simp, by simp⟩
  · rcases List.mem_append.1 he with he | he
    · by_cases hev : e.2 = v
      · rw [hev, Function.update_same]; exact Int.natCast_nonneg _
      · rw [Function.update_noteq hev]; exact h.cover e he
    · obtain rfl := List.mem_singleton.1 he
      rw [Function.update_same]; exact Int.natCast_nonneg u

end Claimed

/-- The out-edges `(u, v)` of the window's vertices, in the order the loop walks them. -/
def windowEdges (window : List Nat) : List (Nat × Nat) :=
  window.flatMap fun u => (c.g.outNeigh u).map (u, ·)

theorem mem_windowEdges {window : List Nat} {u v : Nat} :
    (u, v) ∈ c.windowEdges window ↔ u ∈ window ∧ v ∈ c.g.outNeigh u := by
  simp only [windowEdges, List.mem_flatMap, List.mem_map, Prod.mk.injEq]
  constructor
  · rintro ⟨a, ha, b, hb, rfl, rfl⟩; exact ⟨ha, hb⟩
  · rintro ⟨hu, hv⟩; exact ⟨u, hu, v, hv, rfl, rfl⟩

section TopDown

variable {k : Nat} {parent0 : Nat → Int} {pushed : List Nat} {window : List Nat}
  (htr : c.g.Transposed) (hg : c.g.Valid) (hs : c.source < c.g.numNodes)
  (hL : LevelInv c.g c.source k parent0) (hwin : ∀ x, x ∈ window ↔ c.g.HopDist c.source x k)
  (h : Claimed parent0 parent (c.windowEdges window) pushed)
include hg hs hL hwin h

theorem Claimed.mem_pushed_iff (x : Nat) : x ∈ pushed ↔ c.g.HopDist c.source x (k + 1) := by
  refine ⟨fun hx => ?_, fun hd => ?_⟩
  · obtain ⟨h0, u, hu, -⟩ := h.fresh x hx
    obtain ⟨huw, hux⟩ := (c.mem_windowEdges).1 hu
    have hun := Hops.lt_numNodes hg hs ((hwin u).1 huw).1
    exact (hL.next_of_edge hun (hg.out u hun x hux) ((hL.visited u hun).2 ⟨k, le_rfl, (hwin u).1 huw⟩)
      h0 hux).1
  · by_contra hx
    obtain ⟨p, hp, hpx⟩ := hd.exists_pred
    have hcov := h.cover (p, x) ((c.mem_windowEdges).2 ⟨(hwin p).2 hp, hpx⟩)
    rw [h.fix x hx] at hcov
    exact absurd (hL.neg_of_next (Hops.lt_numNodes hg hs hd.1) hd) (not_lt.2 hcov)

include htr in
theorem Claimed.expand : Expand c.g c.source k parent0 parent := by
  refine ⟨fun x _ hv => h.fix x fun hx => absurd (h.fresh x hx).1 (not_lt.2 hv),
    fun x _ _ hd => ?_, fun x _ hneg hd => ?_⟩
  · obtain ⟨-, u, hu, hpu⟩ := h.fresh x ((h.mem_pushed_iff hg hs hL hwin x).2 hd)
    obtain ⟨huw, hux⟩ := (c.mem_windowEdges).1 hu
    exact ⟨u, (htr x u).2 hux, hpu, (hwin u).1 huw⟩
  · rw [h.fix x fun hx => hd ((h.mem_pushed_iff hg hs hL hwin x).1 hx)]; exact hneg

end TopDown

/-- Rank 0 in the claiming loop over `es0`: the edges before its place are done. -/
def TdAt (es0 : List (Nat × Nat)) (parent0 : Nat → Int) (w : TdWorld) : Prop :=
  match (w.ranks 0).pc with
  | .edge es => ∃ done, es0 = done ++ es ∧ Claimed parent0 (w.parent 0) done (w.ranks 0).pushed
  | .cas u v curr es => ∃ done, es0 = done ++ (u, v) :: es ∧ w.parent 0 v = curr ∧ curr < 0 ∧
      Claimed parent0 (w.parent 0) done (w.ranks 0).pushed
  | .done => Claimed parent0 (w.parent 0) es0 (w.ranks 0).pushed
  | _ => False

def tdPos : TdPc → Nat
  | .edge es => 2 * es.length + 1
  | .cas _ _ _ es => 2 * es.length + 2
  | _ => 0

/-- One step of the claiming loop: it moves on, and claims at most one unvisited vertex. -/
structure TdStepOk (w w' : TdWorld) (n : Nat) : Prop where
  pos : tdPos (w'.ranks 0).pc < tdPos (w.ranks 0).pc
  effect : (w'.parent 0 = w.parent 0 ∧ (w'.ranks 0).pushed = (w.ranks 0).pushed) ∨
    ∃ u v : Nat, v < n ∧ w.parent 0 v < 0 ∧ w'.parent 0 = Function.update (w.parent 0) v (u : Int) ∧
      (w'.ranks 0).pushed = (w.ranks 0).pushed ++ [v]

theorem tdAt_step (h1 : (c.npes : Nat) = 1) {es0 : List (Nat × Nat)} {parent0 : Nat → Int}
    {w : TdWorld} (hE : ∀ e ∈ es0, e.2 < c.g.numNodes) (h : TdAt es0 parent0 w)
    (hd : (w.ranks 0).pc ≠ .done) :
    TdAt es0 parent0 (tdStep c.td w 0) ∧ TdStepOk w (tdStep c.td w 0) c.g.numNodes := by
  unfold TdAt at h
  cases hpc : (w.ranks 0).pc with
  | edge es =>
    rw [hpc] at h
    obtain ⟨D, rfl, hc⟩ := h
    cases es with
    | nil =>
      simp only [tdStep, hpc]
      exact ⟨by simpa [TdAt, TdWorld.setPc] using hc,
        ⟨by simp [TdWorld.setPc, tdPos, hpc], .inl ⟨rfl, by simp [TdWorld.setPc]⟩⟩⟩
    | cons e es =>
      obtain ⟨u, v⟩ := e
      have hv : v < c.g.numNodes := hE (u, v) (by simp)
      simp only [tdStep, hpc, (td_isLocal_iff h1).2 hv, if_true, td_vp_start_zero, Nat.sub_zero]
      split_ifs with hneg
      · simp only [TdAt, TdWorld.setPc, Function.update_same]
        exact ⟨⟨D, rfl, trivial, hneg, hc⟩, by simp [tdPos, hpc]; omega, .inl ⟨rfl, rfl⟩⟩
      · simp only [TdAt, TdWorld.setPc, Function.update_same]
        exact ⟨⟨D ++ [(u, v)], by simp, hc.skip (not_lt.1 hneg)⟩, by simp [tdPos, hpc],
          .inl ⟨rfl, rfl⟩⟩
  | cas u v curr es =>
    rw [hpc] at h
    obtain ⟨D, rfl, hvc, hneg, hc⟩ := h
    have hv : v < c.g.numNodes := hE (u, v) (by simp)
    simp only [tdStep, hpc, td_vp_start_zero, Nat.sub_zero, hvc, if_true, ne_eq,
      Int.ne_of_lt hneg]
    simp only [TdAt, TdWorld.setPc, TdWorld.claim, TdWorld.setParent, Function.update_same]
    exact ⟨⟨D ++ [(u, v)], by simp, hc.claim (hvc ▸ hneg)⟩, by simp [tdPos, hpc],
      .inr ⟨u, v, hv, hvc ▸ hneg, rfl, rfl⟩⟩
  | done => exact absurd hpc hd
  | get | swap | unlock => rw [hpc] at h; exact h.elim

theorem tdAt_run (h1 : (c.npes : Nat) = 1) {es0 : List (Nat × Nat)} {parent0 : Nat → Int}
    (hE : ∀ e ∈ es0, e.2 < c.g.numNodes) : ∀ (m : Nat) (w : TdWorld), TdAt es0 parent0 w →
      tdPos (w.ranks 0).pc ≤ m → ((tdRun c.td w (List.replicate m 0)).ranks 0).pc = .done ∧
        TdAt es0 parent0 (tdRun c.td w (List.replicate m 0))
  | 0, w, h, hm => by
    refine ⟨?_, h⟩
    unfold TdAt at h
    cases hpc : (w.ranks 0).pc with
    | done => exact hpc
    | edge | cas => rw [hpc] at hm; simp [tdPos] at hm
    | get | swap | unlock => rw [hpc] at h; exact h.elim
  | m + 1, w, h, hm => by
    by_cases hd : (w.ranks 0).pc = .done
    · have hw : tdStep c.td w 0 = w := by simp [tdStep, hd]
      have := tdAt_run h1 hE m w h (by rw [hd]; exact Nat.zero_le _)
      rwa [List.replicate_succ, tdRun, List.foldl_cons, hw]
    · obtain ⟨h', hok⟩ := tdAt_step h1 hE h hd
      exact tdAt_run h1 hE m _ h' (by have := hok.pos; omega)

/-- On one rank the claiming loop of `SHMEM_TDStep` takes `parent` from level `k` to `k + 1` and
pushes every vertex of that level once. -/
theorem tdRun_claims_next_level (h1 : (c.npes : Nat) = 1) (hg : c.g.Valid)
    (htr : c.g.Transposed) (hs : c.source < c.g.numNodes) {k : Nat} {parent0 : Nat → Int}
    {window : List Nat} (hL : LevelInv c.g c.source k parent0)
    (hwin : ∀ x, x ∈ window ↔ c.g.HopDist c.source x k) {w w' : TdWorld}
    (hpc : (w.ranks 0).pc = .edge (c.windowEdges window)) (hp : w.parent 0 = parent0)
    (hq : (w.ranks 0).pushed = [])
    (hw' : tdRun c.td w (List.replicate (2 * (c.windowEdges window).length + 1) 0) = w') :
    (w'.ranks 0).pc = .done ∧ LevelInv c.g c.source (k + 1) (w'.parent 0) ∧
      (w'.ranks 0).pushed.Nodup ∧ ∀ x, x ∈ (w'.ranks 0).pushed ↔ c.g.HopDist c.source x (k + 1) := by
  have hE : ∀ e ∈ c.windowEdges window, e.2 < c.g.numNodes := fun ⟨u, v⟩ he => by
    obtain ⟨hu, hv⟩ := (c.mem_windowEdges).1 he
    exact hg.out u (Hops.lt_numNodes hg hs ((hwin u).1 hu).1) v hv
  have h0 : TdAt (c.windowEdges window) parent0 w := by
    unfold TdAt; rw [hpc, hp, hq]; exact ⟨[], rfl, claimed_nil parent0⟩
  obtain ⟨hd, hT⟩ := tdAt_run h1 hE (2 * (c.windowEdges window).length + 1) w h0
    (by rw [hpc]; rfl)
  rw [hw'] at hd hT
  unfold TdAt at hT
  rw [hd] at hT
  exact ⟨hd, hL.expand hs (hT.expand htr hg hs hL hwin), hT.nodup,
    hT.mem_pushed_iff hg hs hL hwin⟩

def pathThreeTd : TdWorld :=
  ⟨fun _ => pathThreeParent, fun _ => none, fun _ => ⟨.edge (pathThree.windowEdges [0]), [], 0⟩⟩

theorem tdRun_claims_next_level_pathThree :
    let w' := tdRun pathThree.td pathThreeTd (List.replicate 3 0)
    (w'.ranks 0).pc = .done ∧ LevelInv pathThree.g pathThree.source 1 (w'.parent 0) ∧
      (w'.ranks 0).pushed.Nodup ∧
      ∀ x, x ∈ (w'.ranks 0).pushed ↔ pathThree.g.HopDist pathThree.source x 1 :=
  tdRun_claims_next_level (show (pathThree.npes : Nat) = 1 from rfl) pathThree_valid
    pathThree_transposed (by decide) pathThreeParent_levelInv
    (fun x => show x ∈ [0] ↔ _ by rw [hopDist_zero_iff]; simp [pathThree]) rfl rfl rfl rfl

end BfsCfg

end DMM
