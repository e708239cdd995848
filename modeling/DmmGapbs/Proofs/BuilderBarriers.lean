import DmmGapbs.Spec.Builder
import Mathlib.Data.Nat.Defs
import Mathlib.Data.List.Basic

/-! How many barriers `CountDegrees` issues, and what a rank that issues fewer than another
can read too early. -/

namespace DMM

section Count

variable (vp : Partition) (symmetrize transpose : Bool)

theorem countDegreesLoop_barriers (k : Nat) (es : List (Nat × Nat)) :
    (countDegreesLoop vp symmetrize transpose k es).count .barrier =
      (k + es.length) / 10000 - k / 10000 := by
  induction es generalizing k with
  | nil => simp [countDegreesLoop]
  | cons e es ih =>
    obtain ⟨u, v⟩ := e
    -- the increments hold no barrier; the `flush_counter` test holds one exactly when the
    -- counter passes a multiple of `10000`
    have hinc : ∀ (b : Bool) (x y : Nat), (if b = true then [BuildOp.inc x y] else []).count .barrier = 0 :=
      fun b _ _ => by cases b <;> rfl
    have hflush : (if (k + 1) % 10000 = 0 then [BuildOp.barrier] else []).count .barrier =
        (k + 1) / 10000 - k / 10000 := by
      rw [Nat.succ_div]; split_ifs <;> simp only [List.count_singleton_self, List.count_nil] <;> omega
    simp only [countDegreesLoop, List.count_append, ih, hinc, hflush, List.length_cons]
    omega

theorem countDegreesOps_barriers (el : List (Nat × Nat)) :
    (countDegreesOps vp symmetrize transpose el).count .barrier = el.length / 10000 + 2 := by
  simp [countDegreesOps, List.count_cons, countDegreesLoop_barriers]

theorem countDegreesLoop_append (k : Nat) (xs ys : List (Nat × Nat)) :
    countDegreesLoop vp symmetrize transpose k (xs ++ ys) =
      countDegreesLoop vp symmetrize transpose k xs ++
        countDegreesLoop vp symmetrize transpose (k + xs.length) ys := by
  induction xs generalizing k with
  | nil => simp [countDegreesLoop]
  | cons e xs ih =>
    obtain ⟨u, v⟩ := e
    simp only [List.cons_append, countDegreesLoop, List.append_eq, ih, List.append_assoc,
      List.length_cons, show k + (xs.length + 1) = k + 1 + xs.length by omega]

theorem countDegreesLoop_replicate (u v : Nat) :
    ∀ (m k : Nat), (∀ j < m, (k + j + 1) % 10000 ≠ 0) →
      countDegreesLoop vp false false k (List.replicate m (u, v)) =
        List.replicate m (.inc (vp.recv u) (vp.localPos u))
  | 0, _, _ => rfl
  | m + 1, k, h => by
    have h0 : (k + 1) % 10000 ≠ 0 := h 0 (by omega)
    have ih := countDegreesLoop_replicate u v m (k + 1) fun j hj => by
      have := h (j + 1) (by omega); rwa [show k + (j + 1) + 1 = k + 1 + j + 1 by omega] at this
    simp [List.replicate_succ, countDegreesLoop, h0, ih]

theorem countDegreesLoop_cons (k u v : Nat) (es : List (Nat × Nat)) :
    countDegreesLoop vp false false k ((u, v) :: es) =
      .inc (vp.recv u) (vp.localPos u) :: ((if (k + 1) % 10000 = 0 then [.barrier] else []) ++
        countDegreesLoop vp false false (k + 1) es) := by
  simp [countDegreesLoop]

theorem countDegreesLoop_replicate_flush (u v m k : Nat) (h : ∀ j < m, (k + j + 1) % 10000 ≠ 0)
    (hm : (k + m + 1) % 10000 = 0) :
    countDegreesLoop vp false false k (List.replicate (m + 1) (u, v)) =
      List.replicate (m + 1) (.inc (vp.recv u) (vp.localPos u)) ++ [.barrier] := by
  rw [List.replicate_succ', List.replicate_succ', countDegreesLoop_append,
    countDegreesLoop_replicate vp u v m k h, List.length_replicate, List.append_assoc]
  simp [countDegreesLoop, hm]

end Count

theorem buildRun_append (c : BuildCfg) (w : BuildWorld) (a b : List BuildEvent) :
    buildRun c w (a ++ b) = buildRun c (buildRun c w a) b := List.foldl_append _ _ _ _

theorem buildRun_incs {c : BuildCfg} (pe q i : Nat) (hpe : pe < c.vp.npes) (k : Nat) :
    ∀ (w : BuildWorld) (tail : List BuildOp),
      (w.ranks pe).rest = List.replicate k (.inc q i) ++ tail →
      buildRun c w (List.replicate k (.act pe)) =
        (w.update q fun r => { r with degrees := Function.update r.degrees i (r.degrees i + k) }).update
          pe fun r => { r with rest := tail } := by
  induction k with
  | zero =>
    intro w tail h
    simp only [List.replicate_zero, List.nil_append] at h
    subst h
    ext p : 2
    by_cases hp : p = pe <;> by_cases hq : p = q <;>
      simp_all [buildRun, BuildWorld.update, Function.update_apply]
  | succ k ih =>
    intro w tail h
    rw [List.replicate_succ, List.cons_append] at h
    have hstep : buildStep c w (.act pe) = (w.update q fun r =>
        { r with degrees := Function.update r.degrees i (r.degrees i + 1) }).advance pe := by
      simp [buildStep, h, hpe, BuildOp.apply, BuildOp.isCollective]
    have hrest : (((w.update q fun r =>
        { r with degrees := Function.update r.degrees i (r.degrees i + 1) }).advance pe).ranks pe).rest =
        List.replicate k (.inc q i) ++ tail := by
      by_cases hq : pe = q
      · subst hq; simp [BuildWorld.advance, BuildWorld.update, h]
      · simp [BuildWorld.advance, BuildWorld.update, Function.update_noteq hq, h]
    rw [List.replicate_succ, buildRun, List.foldl_cons, hstep]
    rw [show List.foldl (buildStep c) _ (List.replicate k (.act pe)) = buildRun c _ _ from rfl,
      ih _ tail hrest]
    ext p : 2
    rcases eq_or_ne p pe with rfl | hp <;> rcases eq_or_ne p q with rfl | hq <;>
      simp [BuildWorld.advance, BuildWorld.update, Function.update_apply, *, Nat.add_assoc,
        Nat.add_comm 1 k]

/-- `19999` copies of the edge `(0, 1)` dealt round-robin to two ranks: `10000` and `9999`. -/
def straddleBuild : BuildCfg :=
  ⟨⟨2, 2, by decide⟩, false, false, fun pe => List.replicate (if pe = 0 then 10000 else 9999) (0, 1)⟩

/-- Rank 0 stops at its `10000`th-edge barrier, rank 1 at the last one of `CountDegrees`: from
then on each collective meets rank 0's call with rank 1's next one. -/
def straddleEvents : List BuildEvent :=
  [.sync, .sync] ++ List.replicate 10000 (.act 0) ++ List.replicate 9999 (.act 1) ++
    [.sync, .sync, .act 1, .sync, .act 1, .act 0, .sync, .act 1, .act 0, .sync, .act 0, .sync,
      .act 1, .act 1, .sync, .act 1]

theorem straddle_reads_max_early :
    (countDegreesOps straddleBuild.vp false false (straddleBuild.el 0)).count .barrier = 3 ∧
    (countDegreesOps straddleBuild.vp false false (straddleBuild.el 1)).count .barrier = 2 ∧
    ((buildRun straddleBuild (buildInit straddleBuild) straddleEvents).ranks 1).maxn = some 0 ∧
    ((buildRun straddleBuild (buildInit straddleBuild) straddleEvents).ranks 0).localMax = 19999 ∧
    ((buildRun straddleBuild (buildInit straddleBuild) straddleEvents).ranks 0).rest.head? =
      some (.putMax 0) := by
  refine ⟨?_, ?_, ?_⟩
  · rw [countDegreesOps_barriers, show straddleBuild.el 0 = List.replicate 10000 (0, 1) from rfl,
      List.length_replicate]
  · rw [countDegreesOps_barriers, show straddleBuild.el 1 = List.replicate 9999 (0, 1) from rfl,
      List.length_replicate]
  have hloop0 : countDegreesLoop straddleBuild.vp false false 0 (List.replicate 10000 (0, 1)) =
      List.replicate 10000 (.inc 0 0) ++ [.barrier] :=
    countDegreesLoop_replicate_flush _ 0 1 9999 0 (fun j hj => by omega) rfl
  have hloop1 : countDegreesLoop straddleBuild.vp false false 0 (List.replicate 9999 (0, 1)) =
      List.replicate 9999 (.inc 0 0) :=
    countDegreesLoop_replicate _ _ _ 9999 0 fun j hj => by omega
  have h0 : (straddleBuild.ops 0).tail.tail = List.replicate 10000 (.inc 0 0) ++
      (.barrier :: .barrier :: csrTail straddleBuild.vp false false (List.replicate 10000 (0, 1))) := by
    show (makeCsrOps straddleBuild.vp false false (List.replicate 10000 (0, 1))).tail.tail = _
    rw [makeCsrOps, countDegreesOps, hloop0, List.cons_append, List.cons_append, List.cons_append,
      List.cons_append, List.tail_cons, List.tail_cons, List.append_assoc, List.append_assoc]
    rfl
  have h1 : (straddleBuild.ops 1).tail.tail = List.replicate 9999 (.inc 0 0) ++
      (.barrier :: csrTail straddleBuild.vp false false (List.replicate 9999 (0, 1))) := by
    show (makeCsrOps straddleBuild.vp false false (List.replicate 9999 (0, 1))).tail.tail = _
    rw [makeCsrOps, countDegreesOps, hloop1, List.cons_append, List.cons_append, List.cons_append,
      List.cons_append, List.tail_cons, List.tail_cons, List.append_assoc]
    rfl
  have hs : buildRun straddleBuild (buildInit straddleBuild) [.sync, .sync] = ⟨fun pe =>
      if pe < 2 then { (buildInit straddleBuild).ranks pe with rest := (straddleBuild.ops pe).tail.tail }
      else (buildInit straddleBuild).ranks pe⟩ := by
    have hn : straddleBuild.vp.npes = 2 := rfl
    have hc : ∀ pe < 2, ((buildInit straddleBuild).ranks pe).rest.head?.map BuildOp.isCollective =
        some true := by decide
    simp only [buildRun, List.foldl, buildStep, hn, if_pos hc]
    rw [if_pos]
    · congr 1
      funext pe
      split_ifs <;> rfl
    · intro pe hpe
      simp only [hpe, if_true]
      exact hc pe hpe
  rw [straddleEvents, buildRun_append, buildRun_append, buildRun_append, hs,
    buildRun_incs 0 0 0 (by decide) 10000 _
      (.barrier :: .barrier :: csrTail straddleBuild.vp false false (List.replicate 10000 (0, 1))) h0,
    buildRun_incs 1 0 0 (by decide) 9999 _
      (.barrier :: csrTail straddleBuild.vp false false (List.replicate 9999 (0, 1))) ?h1]
  · decide
  · exact h1

end DMM
