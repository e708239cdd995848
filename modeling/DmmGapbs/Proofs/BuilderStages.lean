import DmmGapbs.Proofs.BuilderCsr
import Mathlib.Algebra.Order.BigOperators.Group.Finset

/-! How the ranks of `MakeCSR` move against each other. A collective completes on every rank at
once, so at every moment all ranks have passed the same number of collectives (`Staged`). When
every rank issues as many periodic barriers in `CountDegrees` as the others (`Aligned`), every
rank's list holds the same sequence of collectives, so a rank past one of them knows every rank
past it: all increments are done before any rank reads its `degrees`, and every rank's `GenIndex`
before any copy loop. And from every state some run lets every rank return. -/

namespace DMM

def collCount (l : List BuildOp) : Nat := l.countP BuildOp.isCollective

@[simp] theorem collCount_nil : collCount [] = 0 := rfl

@[simp] theorem collCount_append (a b : List BuildOp) :
    collCount (a ++ b) = collCount a + collCount b := List.countP_append _ _ _

@[simp] theorem collCount_cons (op : BuildOp) (l : List BuildOp) :
    collCount (op :: l) = collCount l + if op.isCollective then 1 else 0 := by
  simp [collCount, List.countP_cons]

theorem prefix_of_collCount {X Y d : List BuildOp} {a : BuildOp} (ha : a.isCollective = true)
    (hd : d <+: X ++ a :: Y) (hc : collCount (X ++ [a]) ≤ collCount d) : X ++ [a] <+: d := by
  have hX : X ++ [a] <+: X ++ a :: Y := ⟨Y, by simp⟩
  rcases List.prefix_or_prefix_of_prefix hd hX with h | h
  · rcases List.prefix_concat_iff.1 h with rfl | h
    · exact List.prefix_refl _
    · have := h.sublist.countP_le BuildOp.isCollective
      simp only [collCount, List.countP_append, List.countP_singleton, ha, if_true] at hc this
      omega
  · exact h

theorem prefix_of_not_mem {X Y d r : List BuildOp} {a : BuildOp} (ha : a ∉ X)
    (h : d ++ a :: r = X ++ Y) : X <+: d := by
  have hd : d ++ [a] <+: X ++ Y := ⟨r, by simp [h]⟩
  rcases List.prefix_or_prefix_of_prefix hd (List.prefix_append X Y) with h' | h'
  · exact absurd (h'.subset (by simp)) ha
  · rcases List.prefix_concat_iff.1 h' with rfl | h'
    · exact absurd (by simp) ha
    · exact h'

theorem prefix_of_mem {X Y d : List BuildOp} {a : BuildOp} (ha : a ∉ X) (hm : a ∈ d)
    (h : d <+: X ++ Y) : X <+: d := by
  obtain ⟨s, t, rfl⟩ := List.append_of_mem hm
  obtain ⟨r, hr⟩ := h
  exact (prefix_of_not_mem (r := t ++ r) ha (by rw [← hr]; simp)).trans (List.prefix_append _ _)

namespace BuildCfg

variable (c : BuildCfg)

/-- Every rank issues as many periodic barriers in `CountDegrees` as rank 0. -/
def Aligned : Prop := ∀ p < c.vp.npes, (c.el p).length / 10000 = (c.el 0).length / 10000

instance : Decidable c.Aligned := inferInstanceAs (Decidable (∀ p < c.vp.npes, _))

/-- `ds p` is what rank `p` has issued, and every rank has passed as many collectives as rank 0. -/
structure Staged (w : BuildWorld) (ds : Nat → List BuildOp) : Prop where
  split : ∀ p < c.vp.npes, c.ops p = ds p ++ (w.ranks p).rest
  stage : ∀ p < c.vp.npes, collCount (ds p) = collCount (ds 0)

def syncWorld (w : BuildWorld) : BuildWorld :=
  ⟨fun pe => if pe < c.vp.npes then { w.ranks pe with rest := (w.ranks pe).rest.tail }
    else w.ranks pe⟩

def syncIssued (w : BuildWorld) (ds : Nat → List BuildOp) (p : Nat) : List BuildOp :=
  if p < c.vp.npes then ds p ++ (w.ranks p).rest.take 1 else ds p

def AllAtCollective (w : BuildWorld) : Prop :=
  ∀ pe < c.vp.npes, ∃ op t, (w.ranks pe).rest = op :: t ∧ op.isCollective = true

variable {c}

theorem buildStep_cases (w : BuildWorld) (e : BuildEvent) :
    buildStep c w e = w ∨
      (∃ pe op t, pe < c.vp.npes ∧ (w.ranks pe).rest = op :: t ∧ op.isCollective = false ∧
        buildStep c w e = (op.apply c pe w).advance pe) ∨
      (c.AllAtCollective w ∧ buildStep c w e = c.syncWorld w) := by
  cases e with
  | act pe =>
    simp only [buildStep]
    split
    · rename_i op t hr
      by_cases h : pe < c.vp.npes ∧ !op.isCollective
      · rw [if_pos h]
        exact .inr (.inl ⟨pe, op, t, h.1, hr, by simpa using h.2, rfl⟩)
      · rw [if_neg h]; exact .inl rfl
    · exact .inl rfl
  | sync =>
    simp only [buildStep]
    split_ifs with h
    · refine .inr (.inr ⟨fun pe hpe => ?_, rfl⟩)
      have := h pe hpe
      cases hr : (w.ranks pe).rest with
      | nil => simp [hr] at this
      | cons op t => exact ⟨op, t, rfl, by simpa [hr] using this⟩
    · exact .inl rfl

@[simp] theorem advance_ranks_rest (w : BuildWorld) (pe : Nat) :
    ((w.advance pe).ranks pe).rest = (w.ranks pe).rest.tail := by simp [BuildWorld.advance]

theorem advance_ranks_ne (w : BuildWorld) {pe q : Nat} (h : q ≠ pe) :
    (w.advance pe).ranks q = w.ranks q := BuildWorld.update_ranks_ne _ _ h

theorem apply_rest (w : BuildWorld) (pe q : Nat) (op : BuildOp) :
    ((op.apply c pe w).ranks q).rest = (w.ranks q).rest := by
  cases op <;> simp only [BuildOp.apply, BuildWorld.update, Function.update_apply] <;>
    split_ifs <;> simp_all

theorem Staged.act {w : BuildWorld} {ds : Nat → List BuildOp} (h : c.Staged w ds) {pe : Nat}
    {op : BuildOp} {t : List BuildOp} (hpe : pe < c.vp.npes) (hr : (w.ranks pe).rest = op :: t)
    (hop : op.isCollective = false) :
    c.Staged ((op.apply c pe w).advance pe) (Function.update ds pe (ds pe ++ [op])) := by
  have hs : ∀ p, collCount (Function.update ds pe (ds pe ++ [op]) p) = collCount (ds p) := by
    intro p; rcases eq_or_ne p pe with rfl | hp <;> simp [Function.update_apply, *]
  refine ⟨fun p hp => ?_, fun p hp => by rw [hs, hs]; exact h.stage p hp⟩
  rcases eq_or_ne p pe with rfl | hne
  · simp [h.split p hp, hr, apply_rest]
  · simp [Function.update_noteq hne, advance_ranks_ne _ hne, apply_rest, h.split p hp]

theorem Staged.sync {w : BuildWorld} {ds : Nat → List BuildOp} (h : c.Staged w ds)
    (hall : c.AllAtCollective w) : c.Staged (c.syncWorld w) (c.syncIssued w ds) := by
  have hs : ∀ p < c.vp.npes, collCount (c.syncIssued w ds p) = collCount (ds p) + 1 := by
    intro p hp
    obtain ⟨op, t, hr, hc⟩ := hall p hp
    simp [syncIssued, hp, hr, hc]
  refine ⟨fun p hp => ?_, fun p hp => by
    rw [hs p hp, hs 0 c.vp.npes_pos, h.stage p hp]⟩
  obtain ⟨op, t, hr, -⟩ := hall p hp
  simp [syncWorld, syncIssued, hp, hr, h.split p hp]

theorem staged_init : c.Staged (buildInit c) fun _ => [] :=
  ⟨fun _ _ => rfl, fun _ _ => rfl⟩

end BuildCfg

/-! ### The sequence of collectives -/

section Shape

variable (vp : Partition) (symmetrize transpose : Bool)

theorem collCount_countDegreesLoop (k : Nat) (es : List (Nat × Nat)) :
    collCount (countDegreesLoop vp symmetrize transpose k es) = (k + es.length) / 10000 - k / 10000 := by
  induction es generalizing k with
  | nil => simp [countDegreesLoop]
  | cons e es ih =>
    obtain ⟨u, v⟩ := e
    have hinc : ∀ (b : Bool) (x y : Nat), collCount (if b = true then [BuildOp.inc x y] else []) = 0 :=
      fun b _ _ => by cases b <;> rfl
    have hflush : collCount (if (k + 1) % 10000 = 0 then [BuildOp.barrier] else []) =
        (k + 1) / 10000 - k / 10000 := by
      rw [Nat.succ_div]; split_ifs <;> simp [BuildOp.isCollective] <;> omega
    simp only [countDegreesLoop, collCount_append, ih, hinc, hflush, List.length_cons]
    omega

/-- Everything `MakeCSR` issues before its copy loop, up to `GenIndex`. -/
def preFill (el : List (Nat × Nat)) : List BuildOp :=
  countDegreesOps vp symmetrize transpose el ++
    [.barrier, .blockSums, .alloc, .prefixFill, .alloc, .readLocalMax, .alloc, .alloc] ++
    (List.range vp.npes).map .putMax ++ [.barrier, .readMax, .barrier, .alloc, .barrier, .genIndex]

theorem makeCsrOps_eq_preFill (el : List (Nat × Nat)) :
    makeCsrOps vp symmetrize transpose el =
      preFill vp symmetrize transpose el ++ .barrier :: (fillOps vp symmetrize transpose el ++
        [.barrier, .alloc, .alloc]) := by
  simp [makeCsrOps, csrTail, preFill]

theorem makeCsrOps_eq_count (el : List (Nat × Nat)) :
    makeCsrOps vp symmetrize transpose el =
      countDegreesOps vp symmetrize transpose el ++ .barrier :: (csrTail vp symmetrize transpose el).tail := by
  simp [makeCsrOps, csrTail]

theorem collCount_countDegreesOps (el : List (Nat × Nat)) :
    collCount (countDegreesOps vp symmetrize transpose el) = el.length / 10000 + 3 := by
  simp [countDegreesOps, collCount_countDegreesLoop, BuildOp.isCollective]

theorem collCount_putMax : collCount ((List.range vp.npes).map .putMax) = 0 := by
  simp [collCount, List.countP_eq_zero, BuildOp.isCollective]

theorem collCount_preFill (el : List (Nat × Nat)) :
    collCount (preFill vp symmetrize transpose el) = el.length / 10000 + 12 := by
  simp [preFill, collCount_countDegreesOps, collCount_putMax, BuildOp.isCollective]

theorem collCount_fillOps (el : List (Nat × Nat)) : collCount (fillOps vp symmetrize transpose el) = 0 := by
  induction el with
  | nil => rfl
  | cons e el ih =>
    obtain ⟨u, v⟩ := e
    simp only [fillOps, collCount_append, ih]
    split_ifs <;> simp [BuildOp.isCollective]

theorem collCount_makeCsrOps (el : List (Nat × Nat)) :
    collCount (makeCsrOps vp symmetrize transpose el) = el.length / 10000 + 16 := by
  simp [makeCsrOps_eq_preFill, collCount_preFill, collCount_fillOps, BuildOp.isCollective]

end Shape

namespace BuildCfg

variable {c : BuildCfg} {w : BuildWorld} {ds : Nat → List BuildOp}

theorem Staged.cross (h : c.Staged w ds) {X Y : Nat → List BuildOp} {a : BuildOp}
    (ha : a.isCollective = true) (hops : ∀ p < c.vp.npes, c.ops p = X p ++ a :: Y p)
    (hK : ∀ p < c.vp.npes, collCount (X p) = collCount (X 0)) {p q : Nat} (hp : p < c.vp.npes)
    (hq : q < c.vp.npes) (hx : X p ++ [a] <+: ds p) : X q ++ [a] <+: ds q := by
  have hle : collCount (X p ++ [a]) ≤ collCount (ds p) := hx.sublist.countP_le _
  refine prefix_of_collCount ha ⟨_, ((h.split q hq).symm.trans (hops q hq))⟩ ?_
  have h1 := h.stage p hp; have h2 := h.stage q hq; have h3 := hK p hp; have h4 := hK q hq
  simp only [collCount_append] at hle ⊢
  omega

/-! ### No rank waits forever -/

variable (c) in
def restLen (w : BuildWorld) : Nat := ∑ p in Finset.range c.vp.npes, (w.ranks p).rest.length

theorem buildStep_sync (hall : c.AllAtCollective w) : buildStep c w .sync = c.syncWorld w := by
  refine if_pos fun pe hpe => ?_
  obtain ⟨op, t, hr, hc⟩ := hall pe hpe
  simp [hr, hc]

theorem restLen_act {pe : Nat} {op : BuildOp} {t : List BuildOp} (hpe : pe < c.vp.npes)
    (hr : (w.ranks pe).rest = op :: t) : c.restLen ((op.apply c pe w).advance pe) < c.restLen w := by
  refine Finset.sum_lt_sum (fun p _ => ?_) ⟨pe, Finset.mem_range.2 hpe, by simp [apply_rest, hr]⟩
  rcases eq_or_ne p pe with rfl | hne
  · simp [apply_rest, hr]
  · rw [advance_ranks_ne _ hne, apply_rest]

theorem restLen_sync (hall : c.AllAtCollective w) : c.restLen (c.syncWorld w) < c.restLen w := by
  have hlt : ∀ p < c.vp.npes, ((c.syncWorld w).ranks p).rest.length < (w.ranks p).rest.length :=
    fun p hp => by
      obtain ⟨op, t, hr, -⟩ := hall p hp
      simp [syncWorld, hp, hr]
  exact Finset.sum_lt_sum (fun p hp => (hlt p (Finset.mem_range.1 hp)).le)
    ⟨0, Finset.mem_range.2 c.vp.npes_pos, hlt 0 c.vp.npes_pos⟩

theorem Staged.progress (hA : c.Aligned) (h : c.Staged w ds) :
    (∀ p < c.vp.npes, (w.ranks p).rest = []) ∨
      (∃ pe op t, pe < c.vp.npes ∧ (w.ranks pe).rest = op :: t ∧ op.isCollective = false) ∨
      c.AllAtCollective w := by
  by_cases hone : ∃ pe op t, pe < c.vp.npes ∧ (w.ranks pe).rest = op :: t ∧ op.isCollective = false
  · exact .inr (.inl hone)
  push_neg at hone
  have hcol : ∀ q < c.vp.npes, ∀ op t, (w.ranks q).rest = op :: t → op.isCollective = true :=
    fun q hq op t hr => by simpa using hone q op t hq hr
  have htot : ∀ q < c.vp.npes,
      collCount (ds q) + collCount (w.ranks q).rest = (c.el 0).length / 10000 + 16 := fun q hq => by
    rw [← collCount_append, ← h.split q hq, ops, collCount_makeCsrOps, hA q hq]
  by_cases hdone : ∀ p < c.vp.npes, (w.ranks p).rest = []
  · exact .inl hdone
  push_neg at hdone
  obtain ⟨p, hp, hne⟩ := hdone
  obtain ⟨op, t, hrp⟩ := List.exists_cons_of_ne_nil hne
  refine .inr (.inr fun q hq => ?_)
  cases hr : (w.ranks q).rest with
  | cons op' t' => exact ⟨op', t', rfl, hcol q hq op' t' hr⟩
  | nil =>
    have h1 := htot p hp; have h2 := htot q hq; have h3 := h.stage p hp; have h4 := h.stage q hq
    simp only [hrp, hr, collCount_cons, hcol p hp op t hrp, if_true, collCount_nil] at h1 h2
    omega

theorem Staged.exists_run_done (hA : c.Aligned) (h : c.Staged w ds) :
    ∃ evs, ∀ p < c.vp.npes, ((buildRun c w evs).ranks p).rest = [] := by
  generalize hm : c.restLen w = m
  induction m using Nat.strong_induction_on generalizing w ds with
  | _ m ih =>
    rcases h.progress hA with hd | ⟨pe, op, t, hpe, hr, hop⟩ | hall
    · exact ⟨[], hd⟩
    · obtain ⟨evs, hevs⟩ := ih _ (hm ▸ restLen_act hpe hr) (h.act hpe hr hop) rfl
      exact ⟨.act pe :: evs, by rw [buildRun, List.foldl_cons, buildStep_act hpe hr hop]; exact hevs⟩
    · obtain ⟨evs, hevs⟩ := ih _ (hm ▸ restLen_sync hall) (h.sync hall) rfl
      exact ⟨.sync :: evs, by rw [buildRun, List.foldl_cons, buildStep_sync hall]; exact hevs⟩

theorem Staged.run (h : c.Staged w ds) :
    ∀ evs, ∃ ds', c.Staged (buildRun c w evs) ds' := by
  intro evs
  induction evs generalizing w ds with
  | nil => exact ⟨ds, h⟩
  | cons e evs ih =>
    rw [buildRun, List.foldl_cons]
    rcases buildStep_cases w e with he | ⟨pe, op, t, hpe, hr, hop, he⟩ | ⟨hall, he⟩ <;> rw [he]
    · exact ih h
    · exact ih (h.act hpe hr hop)
    · exact ih (h.sync hall)

variable (c) in
/-- With aligned periodic barriers `MakeCSR` cannot deadlock: from every reachable state some
run lets every rank return. -/
theorem makeCsr_can_return (hA : c.Aligned) (evs : List BuildEvent) :
    ∃ evs', ∀ p < c.vp.npes, ((buildRun c (buildRun c (buildInit c) evs) evs').ranks p).rest = [] :=
  let ⟨_, h⟩ := staged_init.run evs
  h.exists_run_done hA

end BuildCfg

/-- The edge `0 - 1` split over two ranks, one direction each. -/
def edgeBuild : BuildCfg := ⟨⟨2, 2, by decide⟩, false, false, fun p => if p = 0 then [(0, 1)] else [(1, 0)]⟩

theorem makeCsr_can_return_edgeBuild : edgeBuild.Aligned ∧
    ∃ evs', ∀ p < edgeBuild.vp.npes, ((buildRun edgeBuild (buildInit edgeBuild) evs').ranks p).rest = [] :=
  ⟨by decide, BuildCfg.makeCsr_can_return edgeBuild (by decide) []⟩

end DMM
