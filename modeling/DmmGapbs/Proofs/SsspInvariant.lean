import DmmGapbs.Proofs.SsspControl
import DmmGapbs.Proofs.SsspScatter

/-! The invariant behind the exactness of `Shmem_DeltaStep`. Every value of `dist` is
`kDistInf` or the weight of a walk; every vertex below the current bucket has all its out-edges
relaxed; and every out-edge of a reached vertex that is not relaxed is still owed by some rank:
its tail sits in a bin under its current distance, in the copy of a bin the fusion loop is
draining, in a frontier slot Phase 1 has yet to scan, or in the `RelaxEdges` call in
progress. The vote moves the bucket only past buckets no rank holds an entry of, so at exit
every reached vertex is relaxed. -/

namespace DMM

open WGraph

/-- Every out-edge of `u` is relaxed in `d`. -/
def Settled (c : SsspCfg) (d : Nat → Nat) (u : Nat) : Prop :=
  ∀ e ∈ c.g.outNeigh u, d e.1 ≤ d u + e.2

/-- The bucket being worked on: `curr_bin_index`, and in Phase 2 the one the vote chose. -/
def SsspWorld.level (w : SsspWorld) : Nat :=
  if (w.ranks 0).pc.segment = .phase2 then (w.ranks 0).next else (w.ranks 0).curr

def Ret.scanFrom : Ret → Option Nat
  | .scan i => some (i + 1)
  | .drain _ => none

def Ret.rest : Ret → List Nat
  | .scan _ => []
  | .drain rest => rest

namespace Pc

def scanFrom : Pc → Option Nat
  | .scan i => some i
  | .edge _ _ ret | .readU _ _ _ _ _ ret | .cas _ _ _ _ _ _ ret | .reread _ _ _ _ _ ret => ret.scanFrom
  | _ => none

def drainRest : Pc → List Nat
  | .drain rest => rest
  | .edge _ _ ret | .readU _ _ _ _ _ ret | .cas _ _ _ _ _ _ ret | .reread _ _ _ _ _ ret => ret.rest
  | _ => []

/-- The `RelaxEdges(u)` in progress still owes edge `(x, wt)`. -/
def Handles (d : Nat → Nat) (u x wt : Nat) : Pc → Prop
  | .edge u' es _ => u' = u ∧ (x, wt) ∈ es
  | .readU u' x' wt' _ es _ => u' = u ∧ ((x', wt') = (x, wt) ∨ (x, wt) ∈ es)
  | .cas u' x' wt' _ nd es _ | .reread u' x' wt' nd es _ =>
    u' = u ∧ ((x', wt') = (x, wt) ∧ nd ≤ d u + wt ∨ (x, wt) ∈ es)
  | _ => False

/-- What a rank in `RelaxEdges` knows of the values it read, with `L` the current bucket. -/
def Ok (c : SsspCfg) (d : Nat → Nat) (L : Nat) : Pc → Prop
  | .edge u es _ => es <:+ c.g.outNeigh u
  | .readU u x wt old es _ => (x, wt) :: es <:+ c.g.outNeigh u ∧ d x ≤ old ∧ old ≤ kDistInf
  | .cas u x wt old nd es _ => (x, wt) :: es <:+ c.g.outNeigh u ∧ nd < old ∧ old ≤ kDistInf ∧
    Walk c.g c.source x nd ∧ (c.delta * L ≤ nd ∨ d x ≤ nd)
  | .reread u x wt nd es _ => (x, wt) :: es <:+ c.g.outNeigh u ∧ nd < kDistInf ∧
    Walk c.g c.source x nd ∧ (c.delta * L ≤ nd ∨ d x ≤ nd)
  | _ => True

end Pc

/-- Rank `pe`, in state `r`, will relax edge `(x, wt)` of `u` with `u`'s distance in `d`. -/
def Pending (c : SsspCfg) (pe : Nat) (r : SsspRank) (d : Nat → Nat) (u x wt : Nat) : Prop :=
  u ∈ r.bins (d u / c.delta) ∨ u ∈ r.pc.drainRest ∨
  (∃ j, r.pc.scanFrom = some j ∧ ∃ i, j ≤ i ∧ i < c.sliceWidth pe r ∧ r.frontier i = u ∧
    c.delta * r.curr ≤ d u) ∨
  r.pc.Handles d u x wt

/-- Every out-edge of a reached vertex is relaxed, or some rank owes it. -/
def Covered (c : SsspCfg) (w : SsspWorld) : Prop :=
  ∀ u, w.dist u < kDistInf → ∀ e ∈ c.g.outNeigh u, w.dist e.1 ≤ w.dist u + e.2 ∨
    ∃ pe < (c.npes : Nat), Pending c pe (w.ranks pe) w.dist u e.1 e.2

def Reserved (w : SsspWorld) (pe : Nat) : Prop :=
  (w.ranks pe).pc = .wait3 ∧ (w.ranks pe).next < (w.ranks pe).binsSize

/-- Phase 2: the reserved ranges are disjoint and below PE 0's `next_frontier_tail`. -/
def Reservations (c : SsspCfg) (w : SsspWorld) : Prop :=
  ∀ p < (c.npes : Nat), Reserved w p →
    (w.ranks p).copyStart + ((w.ranks p).bins (w.ranks p).next).length ≤ (w.ranks 0).nextTail ∧
    ∀ q < (c.npes : Nat), q ≠ p → Reserved w q →
      (w.ranks p).copyStart + ((w.ranks p).bins (w.ranks p).next).length ≤ (w.ranks q).copyStart ∨
      (w.ranks q).copyStart + ((w.ranks q).bins (w.ranks q).next).length ≤ (w.ranks p).copyStart

/-- The correctness invariant of the SSSP machine. -/
structure Inv (c : SsspCfg) (w : SsspWorld) : Prop where
  ctl : Control c w
  /-- Every distance is `kDistInf` or the weight of a walk from the source. -/
  sound : ∀ v, w.dist v ≤ kDistInf ∧ (w.dist v < kDistInf → Walk c.g c.source v (w.dist v))
  src : w.dist c.source = 0
  /-- `local_bins.size()` bounds the non-empty bins. -/
  bins : ∀ pe < (c.npes : Nat), ∀ b, (w.ranks pe).bins b ≠ [] → b < (w.ranks pe).binsSize
  pc : ∀ pe < (c.npes : Nat), (w.ranks pe).pc.Ok c w.dist w.level
  /-- Below the current bucket every vertex is relaxed. -/
  lower : ∀ v, w.dist v < c.delta * w.level → Settled c w.dist v
  covered : Covered c w
  reservations : (w.ranks 0).pc.segment = .phase2 → Reservations c w
  exit : (w.ranks 0).pc = .done → (w.ranks 0).curr = kMaxBin

variable {c : SsspCfg} {w w' : SsspWorld}

/-! ### The facts each part of the invariant rests on -/

theorem Pc.segment_of_active {p : Pc} (h : p.active) :
    p.segment = .phase1 ∨ p.segment = .fusion := by
  cases p with
  | edge _ _ ret | readU _ _ _ _ _ ret | cas _ _ _ _ _ _ ret | reread _ _ _ _ _ ret =>
    cases ret <;> simp [Pc.segment, Ret.segment]
  | _ => simp_all [Pc.active, Pc.segment]

theorem pending_phase2 {pe : Nat} {r : SsspRank} {d : Nat → Nat} {u x wt : Nat}
    (h : r.pc.segment = .phase2 ∨ r.pc = .wait1 ∨ r.pc = .wait2) :
    Pending c pe r d u x wt ↔ u ∈ r.bins (d u / c.delta) := by
  have : r.pc = .reserve ∨ r.pc = .wait3 ∨ r.pc = .wait1 ∨ r.pc = .wait2 := by
    rcases h with h | h | h
    · cases hp : r.pc with
      | edge _ _ ret | readU _ _ _ _ _ ret | cas _ _ _ _ _ _ ret | reread _ _ _ _ _ ret =>
        rw [hp] at h; cases ret <;> cases h
      | _ => rw [hp] at h; simp_all [Pc.segment]
    · exact .inr (.inr (.inl h))
    · exact .inr (.inr (.inr h))
  unfold Pending
  rcases this with h | h | h | h <;> simp [h, Pc.drainRest, Pc.scanFrom, Pc.Handles]

theorem handles_congr {p : Pc} {d d' : Nat → Nat} {u x wt : Nat} (h : d' u = d u) :
    p.Handles d' u x wt ↔ p.Handles d u x wt := by
  cases p <;> simp [Pc.Handles, h]

theorem pending_congr {pe : Nat} {r : SsspRank} {d d' : Nat → Nat} {u x wt : Nat}
    (h : d' u = d u) : Pending c pe r d' u x wt ↔ Pending c pe r d u x wt := by
  simp only [Pending, h, handles_congr h]

theorem Pc.Ok.mono {p : Pc} {d d' : Nat → Nat} {L : Nat} (hd : ∀ y, d' y ≤ d y)
    (h : p.Ok c d L) : p.Ok c d' L := by
  cases p with
  | readU u x wt old es ret => exact ⟨h.1, (hd x).trans h.2.1, h.2.2⟩
  | cas u x wt old nd es ret =>
    exact ⟨h.1, h.2.1, h.2.2.1, h.2.2.2.1, h.2.2.2.2.imp_right (hd x).trans⟩
  | reread u x wt nd es ret => exact ⟨h.1, h.2.1, h.2.2.1, h.2.2.2.imp_right (hd x).trans⟩
  | _ => exact h

theorem lower_mono {d d' : Nat → Nat} {L : Nat} (hd : ∀ y, d' y ≤ d y)
    (hL : ∀ y, d' y < c.delta * L → d' y = d y)
    (h : ∀ v, d v < c.delta * L → Settled c d v) : ∀ v, d' v < c.delta * L → Settled c d' v :=
  fun v hv e he => by
    have := h v (hL v hv ▸ hv) e he
    rw [hL v hv]; exact (hd _).trans this

theorem SameWords.level_eq (h : SameWords w w') : w'.level = w.level := by
  simp only [SsspWorld.level, SsspRank.next, SsspRank.curr, h.seg, h.iter, h.idx]

namespace SsspRank

theorem mem_push_of_mem {r : SsspRank} {b b' u v : Nat} (h : u ∈ r.bins b') : u ∈ (r.push b v).bins b' := by
  simp only [push, Function.update_apply]; split_ifs with hb
  · subst hb; exact List.mem_append_left _ h
  · exact h

theorem mem_push_self (r : SsspRank) (b v : Nat) : v ∈ (r.push b v).bins b := by
  simp [push]

end SsspRank

/-! ### One move of one rank -/

section Move

variable {pe : Nat} {r r' : SsspRank} {d d' : Nat → Nat} {L : Nat}

theorem RankMove.dist_cases (hm : RankMove c pe r d r' d') : d' = d ∨
    ∃ u x wt old nd es ret, r.pc = .cas u x wt old nd es ret ∧ d x = old ∧
      r' = { r.push (nd / c.delta) x with pc := .edge u es ret } ∧ d' = Function.update d x nd := by
  cases hm <;> first | exact .inl rfl | exact .inr ⟨_, _, _, _, _, _, _, ‹_›, ‹_›, rfl, rfl⟩

theorem RankMove.write (hm : RankMove c pe r d r' d') (hok : r.pc.Ok c d L) :
    d' = d ∨ ∃ x nd, nd < d x ∧ Walk c.g c.source x nd ∧ c.delta * L ≤ nd ∧
      x ∈ r'.bins (nd / c.delta) ∧ d' = Function.update d x nd := by
  rcases hm.dist_cases with h | ⟨u, x, wt, old, nd, es, ret, hpc, hx, rfl, rfl⟩
  · exact .inl h
  · rw [hpc] at hok
    obtain ⟨-, hlt, -, hwalk, hL⟩ := hok
    exact .inr ⟨x, nd, hx ▸ hlt, hwalk, hL.resolve_right (by omega), SsspRank.mem_push_self _ _ _, rfl⟩

theorem RankMove.ok (hm : RankMove c pe r d r' d') (hok : r.pc.Ok c d L)
    (hsound : ∀ v, d v ≤ kDistInf ∧ (d v < kDistInf → Walk c.g c.source v (d v)))
    (hlow : ∀ v, d v < c.delta * L → Settled c d v) : r'.pc.Ok c d' L := by
  cases hm with
  | scanRelax => exact List.suffix_refl _
  | scanSkip | scanEnd | edgeEndScan | edgeEndDrain | drainCopy | drainEnd => trivial
  | drainNext => exact List.suffix_refl _
  | edgeRead hpc => rw [hpc] at hok; exact ⟨hok, Nat.le_refl _, (hsound _).1⟩
  | @readCas u x wt old es ret hpc hlt =>
    rw [hpc] at hok
    obtain ⟨hsuf, -, hold⟩ := hok
    have he : (x, wt) ∈ c.g.outNeigh u := hsuf.subset (List.mem_cons_self _ _)
    refine ⟨hsuf, hlt, hold, .cons ((hsound u).2 (by omega)) he, ?_⟩
    by_cases hu : d u < c.delta * L
    · exact .inr (hlow u hu _ he)
    · exact .inl (by omega)
  | readSkip hpc => rw [hpc] at hok; exact (List.suffix_cons _ _).trans hok.1
  | casWin hpc => rw [hpc] at hok; exact (List.suffix_cons _ _).trans hok.1
  | casLose hpc =>
    rw [hpc] at hok
    exact ⟨hok.1, by have := hok.2.1; have := hok.2.2.1; omega, hok.2.2.2⟩
  | rereadCas hpc hlt => rw [hpc] at hok; exact ⟨hok.1, hlt, (hsound _).1, hok.2.2⟩
  | rereadSkip hpc => rw [hpc] at hok; exact (List.suffix_cons _ _).trans hok.1

theorem RankMove.bins (hm : RankMove c pe r d r' d')
    (h : ∀ b, r.bins b ≠ [] → b < r.binsSize) : ∀ b, r'.bins b ≠ [] → b < r'.binsSize := by
  cases hm with
  | casWin =>
    intro b hb
    simp only [SsspRank.push, Function.update_apply] at hb ⊢
    split_ifs at hb with h'
    · omega
    · exact Nat.lt_of_lt_of_le (h b hb) (Nat.le_max_left _ _)
  | drainCopy =>
    intro b hb
    simp only [Function.update_apply] at hb
    split_ifs at hb with h'
    · exact absurd rfl hb
    · exact h b hb
  | _ => exact h

theorem pending_of_handles {u x wt : Nat} (hp : Pending c pe r d u x wt)
    (hbins : ∀ b, u ∈ r.bins b → u ∈ r'.bins b)
    (hscan : r'.pc.scanFrom = r.pc.scanFrom) (hdrain : r'.pc.drainRest = r.pc.drainRest)
    (hcurr : r'.curr = r.curr) (hw : c.sliceWidth pe r' = c.sliceWidth pe r)
    (hf : r'.frontier = r.frontier) (hu : d' u = d u)
    (hh : r.pc.Handles d u x wt → r'.pc.Handles d' u x wt) : Pending c pe r' d' u x wt := by
  rcases hp with h | h | ⟨j, hj, i, hji, hi, hfi, hc⟩ | h
  · exact .inl (by rw [hu]; exact hbins _ h)
  · exact .inr (.inl (by rw [hdrain]; exact h))
  · exact .inr (.inr (.inl ⟨j, by rw [hscan]; exact hj, i, hji, by rw [hw]; exact hi,
      by rw [hf]; exact hfi, by rw [hcurr, hu]; exact hc⟩))
  · exact .inr (.inr (.inr (hh h)))

theorem RankMove.pending (hm : RankMove c pe r d r' d') (hok : r.pc.Ok c d L) {u x wt : Nat}
    (he : (x, wt) ∈ c.g.outNeigh u) (hu : d' u = d u) (hsat : ¬d' x ≤ d' u + wt)
    (hp : Pending c pe r d u x wt) : Pending c pe r' d' u x wt := by
  cases hm with
  | @scanRelax i hpc hi hle =>
    rcases hp with h | h | ⟨j, hj, k, hjk, hk, hfk, hc⟩ | h
    · exact .inl h
    · simp [hpc, Pc.drainRest] at h
    · simp only [hpc, Pc.scanFrom, Option.some.injEq] at hj; subst hj
      rcases Nat.eq_or_lt_of_le hjk with rfl | hlt
      · exact .inr (.inr (.inr ⟨hfk, hfk ▸ he⟩))
      · exact .inr (.inr (.inl ⟨i + 1, rfl, k, hlt, hk, hfk, hc⟩))
    · simp [hpc, Pc.Handles] at h
  | @scanSkip i hpc hi hle =>
    rcases hp with h | h | ⟨j, hj, k, hjk, hk, hfk, hc⟩ | h
    · exact .inl h
    · simp [hpc, Pc.drainRest] at h
    · simp only [hpc, Pc.scanFrom, Option.some.injEq] at hj; subst hj
      rcases Nat.eq_or_lt_of_le hjk with rfl | hlt
      · exact absurd (hfk ▸ hc) hle
      · exact .inr (.inr (.inl ⟨i + 1, rfl, k, hlt, hk, hfk, hc⟩))
    · simp [hpc, Pc.Handles] at h
  | @scanEnd i hpc hi =>
    rcases hp with h | h | ⟨j, hj, k, hjk, hk, -⟩ | h
    · exact .inl h
    · simp [hpc, Pc.drainRest] at h
    · simp only [hpc, Pc.scanFrom, Option.some.injEq] at hj; subst hj
      exact absurd (Nat.lt_of_le_of_lt hjk hk) hi
    · simp [hpc, Pc.Handles] at h
  | edgeEndScan hpc =>
    exact pending_of_handles hp (fun _ h => h) (by rw [hpc]; rfl) (by rw [hpc]; rfl) rfl rfl rfl hu
      (by simp [hpc, Pc.Handles])
  | edgeEndDrain hpc =>
    exact pending_of_handles hp (fun _ h => h) (by rw [hpc]; rfl) (by rw [hpc]; rfl) rfl rfl rfl hu
      (by simp [hpc, Pc.Handles])
  | edgeRead hpc =>
    refine pending_of_handles hp (fun _ h => h) (by rw [hpc]; rfl) (by rw [hpc]; rfl) rfl rfl rfl hu
      (fun h => ?_)
    simp only [hpc, Pc.Handles, List.mem_cons] at h ⊢
    exact ⟨h.1, h.2.imp_left Eq.symm⟩
  | readCas hpc hlt =>
    refine pending_of_handles hp (fun _ h => h) (by rw [hpc]; rfl) (by rw [hpc]; rfl) rfl rfl rfl hu
      (fun h => ?_)
    simp only [hpc, Pc.Handles, Prod.mk.injEq] at h ⊢
    obtain ⟨rfl, h | h⟩ := h
    · exact ⟨rfl, .inl ⟨h, by rw [h.2]⟩⟩
    · exact ⟨rfl, .inr h⟩
  | readSkip hpc hge =>
    refine pending_of_handles hp (fun _ h => h) (by rw [hpc]; rfl) (by rw [hpc]; rfl) rfl rfl rfl hu
      (fun h => ?_)
    rw [hpc] at hok
    simp only [hpc, Pc.Handles, Prod.mk.injEq] at h ⊢
    obtain ⟨rfl, ⟨rfl, rfl⟩ | h⟩ := h
    · exact absurd (by have := hok.2.1; omega) hsat
    · exact ⟨rfl, h⟩
  | casWin hpc hx =>
    refine pending_of_handles hp (fun _ h => SsspRank.mem_push_of_mem h) (by rw [hpc]; rfl)
      (by rw [hpc]; rfl) rfl rfl rfl hu (fun h => ?_)
    simp only [hpc, Pc.Handles, Prod.mk.injEq] at h ⊢
    obtain ⟨rfl, ⟨⟨rfl, rfl⟩, hnd⟩ | h⟩ := h
    · exact absurd (by rw [hu, Function.update_same]; exact hnd) hsat
    · exact ⟨rfl, h⟩
  | casLose hpc =>
    exact pending_of_handles hp (fun _ h => h) (by rw [hpc]; rfl) (by rw [hpc]; rfl) rfl rfl rfl hu
      (by simp only [hpc, Pc.Handles]; exact id)
  | rereadCas hpc =>
    exact pending_of_handles hp (fun _ h => h) (by rw [hpc]; rfl) (by rw [hpc]; rfl) rfl rfl rfl hu
      (by simp only [hpc, Pc.Handles]; exact id)
  | rereadSkip hpc hge =>
    refine pending_of_handles hp (fun _ h => h) (by rw [hpc]; rfl) (by rw [hpc]; rfl) rfl rfl rfl hu
      (fun h => ?_)
    simp only [hpc, Pc.Handles, Prod.mk.injEq] at h ⊢
    obtain ⟨rfl, ⟨⟨rfl, rfl⟩, hnd⟩ | h⟩ := h
    · exact absurd (by omega) hsat
    · exact ⟨rfl, h⟩
  | drainCopy hpc =>
    rcases hp with h | h | ⟨j, hj, -⟩ | h
    · by_cases hb : d u / c.delta = r.curr
      · exact .inr (.inl (by rw [← hb]; exact h))
      · exact .inl (by simp only [Function.update_apply, hb, if_false]; exact h)
    · simp [hpc, Pc.drainRest] at h
    · simp [hpc, Pc.scanFrom] at hj
    · simp [hpc, Pc.Handles] at h
  | drainEnd hpc =>
    exact pending_of_handles hp (fun _ h => h) (by rw [hpc]; rfl) (by rw [hpc]; rfl) rfl rfl rfl hu
      (by simp [hpc, Pc.Handles])
  | drainNext hpc =>
    rcases hp with h | h | ⟨j, hj, -⟩ | h
    · exact .inl h
    · simp only [hpc, Pc.drainRest, List.mem_cons] at h
      rcases h with rfl | h
      · exact .inr (.inr (.inr ⟨rfl, he⟩))
      · exact .inr (.inl h)
    · simp [hpc, Pc.scanFrom] at hj
    · simp [hpc, Pc.Handles] at h

end Move

/-! ### Preservation, event by event -/

theorem inv_move (h : Inv c w) {pe : Nat} (hpe : pe < (c.npes : Nat)) (hact : (w.ranks pe).pc.active)
    {r' : SsspRank} {d' : Nat → Nat} (hm : RankMove c pe (w.ranks pe) w.dist r' d')
    (hsw : SameWords w ⟨d', Function.update w.ranks pe r'⟩) :
    Inv c ⟨d', Function.update w.ranks pe r'⟩ := by
  have hlev := hsw.level_eq
  have hok := h.pc pe hpe
  have hseg : (w.ranks 0).pc.segment = .phase1 ∨ (w.ranks 0).pc.segment = .fusion :=
    h.ctl.seg pe hpe ▸ Pc.segment_of_active hact
  -- the only write, and what it keeps
  have hmono : ∀ y, d' y ≤ w.dist y := by
    rcases hm.write hok with rfl | ⟨x, nd, hlt, -, -, -, rfl⟩
    · exact fun _ => Nat.le_refl _
    · intro y; rw [Function.update_apply]; split_ifs with hy
      · subst hy; exact Nat.le_of_lt hlt
      · exact Nat.le_refl _
  have hkeep : ∀ y, d' y < c.delta * w.level → d' y = w.dist y := by
    rcases hm.write hok with rfl | ⟨x, nd, -, -, hL, -, rfl⟩
    · exact fun _ _ => rfl
    · intro y hy; rw [Function.update_apply] at hy ⊢; split_ifs at hy ⊢
      · omega
      · rfl
  refine ⟨h.ctl.of_sameWords hsw, fun v => ?_, ?_, fun q hq b hb => ?_, fun q hq => ?_, ?_,
    fun u hu e he => ?_, fun h2 => ?_, fun h0 => ?_⟩
  · -- sound
    rcases hm.write hok with rfl | ⟨x, nd, hlt, hwalk, -, -, rfl⟩
    · exact h.sound v
    · have := (h.sound x).1
      by_cases hv : v = x
      · subst hv; simp only [Function.update_same]; exact ⟨by omega, fun _ => hwalk⟩
      · simp only [Function.update_noteq hv]; exact h.sound v
  · -- the source stays at 0
    show d' c.source = 0
    have := hmono c.source; rw [h.src] at this; omega
  · -- bins
    by_cases hq' : q = pe
    · subst hq'; simp only [Function.update_same] at hb ⊢; exact hm.bins (h.bins q hq) b hb
    · simp only [Function.update_noteq hq'] at hb ⊢; exact h.bins q hq b hb
  · -- `pc` facts
    show Pc.Ok c d' _ _
    rw [hlev]
    by_cases hq' : q = pe
    · subst hq'; simp only [Function.update_same]; exact hm.ok hok h.sound h.lower
    · simp only [Function.update_noteq hq']; exact (h.pc q hq).mono hmono
  · -- lower
    show ∀ v, d' v < _ → _
    rw [hlev]; exact lower_mono hmono hkeep h.lower
  · -- covered
    show d' e.1 ≤ d' u + e.2 ∨ ∃ q < (c.npes : Nat), Pending c q (Function.update w.ranks pe r' q) d' u e.1 e.2
    by_cases hsat : d' e.1 ≤ d' u + e.2
    · exact .inl hsat
    refine .inr ?_
    by_cases hdu : d' u = w.dist u
    · rcases h.covered u (hdu ▸ hu) e he with hs | ⟨q, hq, hp⟩
      · exact absurd (Nat.le_trans (hmono _) (hdu ▸ hs)) hsat
      by_cases hq' : q = pe
      · subst hq'
        exact ⟨q, hq, by rw [Function.update_same]; exact hm.pending hok he hdu hsat hp⟩
      · exact ⟨q, hq, by rw [Function.update_noteq hq']; exact (pending_congr hdu).2 hp⟩
    · rcases hm.write hok with rfl | ⟨x, nd, -, -, -, hx, rfl⟩
      · exact absurd rfl hdu
      · have hux : u = x := by by_contra hne; exact hdu (Function.update_noteq hne _ _)
        subst hux
        exact ⟨pe, hpe, .inl (by simp only [Function.update_same]; exact hx)⟩
  · -- no reservations outside Phase 2
    have := hsw.seg 0; simp only at this h2; rw [this] at h2
    rcases hseg with h' | h' <;> rw [h'] at h2 <;> cases h2
  · have := hsw.seg 0; simp only at this h0; rw [h0] at this
    rcases hseg with h' | h' <;> rw [h'] at this <;> cases this

theorem inv_fusion (h : Inv c w) (hw : w.AllAt c .wait1)
    (hctl : Control c { w with ranks := fun pe => { w.ranks pe with pc := .drain [] } }) :
    Inv c { w with ranks := fun pe => { w.ranks pe with pc := .drain [] } } := by
  have hlev : SsspWorld.level { w with ranks := fun pe => { w.ranks pe with pc := .drain [] } } =
      w.level := by
    simp only [SsspWorld.level, hw 0 c.npes.pos]; rfl
  refine ⟨hctl, h.sound, h.src, h.bins, fun _ _ => trivial, hlev ▸ h.lower, fun u hu e he => ?_,
    (fun h2 => by cases h2), fun h0 => by cases h0⟩
  rcases h.covered u hu e he with hs | ⟨q, hq, hp⟩
  · exact .inl hs
  · exact .inr ⟨q, hq, .inl ((pending_phase2 (.inr (.inl (hw q hq)))).1 hp)⟩

theorem firstBin_le {bins : Nat → List Nat} {b : Nat} (hb : bins b ≠ []) :
    ∀ i k, i ≤ b → b < i + k → ∃ j, SsspRank.firstBin bins i k = some j ∧ j ≤ b
  | _, 0, h1, h2 => by omega
  | i, k + 1, h1, h2 => by
    unfold SsspRank.firstBin
    split_ifs with hi
    · exact ⟨i, rfl, h1⟩
    · have : i ≠ b := fun e => hi (e ▸ hb)
      exact firstBin_le hb (i + 1) k (by omega) (by omega)

theorem localMin_le {r : SsspRank} {b : Nat} (hb : r.bins b ≠ []) (h1 : r.curr ≤ b)
    (h2 : b < r.binsSize) : r.localMin ≤ b := by
  obtain ⟨j, hj, hjb⟩ := firstBin_le hb r.curr (r.binsSize - r.curr) h1 (by omega)
  simp only [SsspRank.localMin, hj]
  exact Nat.le_trans (Nat.min_le_right _ _) hjb

theorem foldr_min_le {a x : Nat} : ∀ {l : List Nat}, x ∈ l → l.foldr min a ≤ x
  | _ :: _, .head _ => Nat.min_le_left _ _
  | _ :: _, .tail _ h => Nat.le_trans (Nat.min_le_right _ _) (foldr_min_le h)

theorem minLocal_le (c : SsspCfg) (w : SsspWorld) {pe : Nat} (hpe : pe < (c.npes : Nat)) :
    w.minLocal c ≤ (w.ranks pe).localMin :=
  foldr_min_le (List.mem_map.2 ⟨pe, List.mem_range.2 hpe, rfl⟩)

theorem inv_vote (h : Inv c w) (hw : w.AllAt c .wait2) : Inv c (w.vote c) := by
  have hseg : (w.ranks 0).pc.segment = .fusion := by rw [hw 0 c.npes.pos]; rfl
  have hlev : w.level = (w.ranks 0).curr := by simp only [SsspWorld.level, hseg]; rfl
  have hlev' : (w.vote c).level = w.minLocal c := by
    simp only [SsspWorld.level, SsspWorld.vote_ranks, SsspRank.voted, SsspRank.next, Pc.segment,
      if_true, Function.update_noteq (slot_ne _).symm, Function.update_same]
  refine ⟨control_vote h.ctl hw, h.sound, h.src, h.bins, fun _ _ => trivial, ?_,
    fun u hu e he => ?_, fun _ p _ hp => ?_, fun h0 => by cases h0⟩
  · -- the new bucket
    show ∀ v, w.dist v < c.delta * (w.vote c).level → Settled c w.dist v
    rw [hlev']
    intro v hv
    by_cases hk : w.dist v < c.delta * w.level
    · exact h.lower v hk
    by_cases hinf : kDistInf ≤ w.dist v
    · intro e _; have := (h.sound e.1).1; omega
    intro e he
    by_contra hsat
    rcases h.covered v (by omega) e he with hs | ⟨q, hq, hp⟩
    · exact hsat hs
    rw [pending_phase2 (.inr (.inr (hw q hq)))] at hp
    have hδ : 0 < c.delta := Nat.pos_of_ne_zero (by rintro h0; simp [h0] at hv)
    have hcurr : (w.ranks q).curr = (w.ranks 0).curr := by
      simp only [SsspRank.curr, h.ctl.iter q hq, h.ctl.idx q hq]
    have hb1 : (w.ranks q).curr ≤ w.dist v / c.delta := by
      rw [hcurr, ← hlev]; exact (Nat.le_div_iff_mul_le hδ).2 (by rw [Nat.mul_comm]; omega)
    have hm := Nat.le_trans (minLocal_le c w hq)
      (localMin_le (List.ne_nil_of_mem hp) hb1 (h.bins q hq _ (List.ne_nil_of_mem hp)))
    have : c.delta * (w.dist v / c.delta) ≤ w.dist v := Nat.mul_div_le _ _
    have := Nat.mul_le_mul_left c.delta hm
    omega
  · rcases h.covered u hu e he with hs | ⟨q, hq, hp⟩
    · exact .inl hs
    · exact .inr ⟨q, hq, .inl ((pending_phase2 (.inr (.inr (hw q hq)))).1 hp)⟩
  · -- no rank has reserved yet
    exact absurd hp.1 (by simp [SsspRank.voted])

theorem reservations_reserve (h : Inv c w) {pe : Nat} (hpe : pe < (c.npes : Nat))
    (hr : (w.ranks pe).pc = .reserve) (hs0 : (w.ranks 0).pc.segment = .phase2) :
    Reservations c (w.reserve pe) := by
  have hit := h.ctl.iter pe hpe
  have hnext : ∀ q, ((w.reserve pe).ranks q).next = (w.ranks q).next := fun q => by
    simp only [SsspRank.next, SsspWorld.reserve_iter, SsspWorld.reserve_sharedIndexes]
  have hres : ∀ q, Reserved (w.reserve pe) q ↔ q = pe ∧ (w.ranks pe).next < (w.ranks pe).binsSize ∨
      q ≠ pe ∧ Reserved w q := fun q => by
    simp only [Reserved, SsspWorld.reserve_pc, SsspWorld.reserve_binsSize, hnext]
    by_cases hq : q = pe
    · subst hq; simp
    · simp [hq]
  have hcs : ∀ q, ((w.reserve pe).ranks q).copyStart =
      if q = pe ∧ (w.ranks pe).next < (w.ranks pe).binsSize then (w.ranks 0).nextTail
      else (w.ranks q).copyStart := fun q => by
    rw [SsspWorld.reserve_copyStart, SsspRank.nextTail, hit]
  have hT : ((w.reserve pe).ranks 0).nextTail = (w.ranks 0).nextTail +
      if (w.ranks pe).next < (w.ranks pe).binsSize then
        ((w.ranks pe).bins (w.ranks pe).next).length else 0 := by
    have := w.reserve_tail pe
    rw [hit] at this
    simp only [SsspRank.nextTail, SsspWorld.reserve_iter, this]
  have old := h.reservations hs0
  have hnot : ¬Reserved w pe := fun h' => by rw [h'.1] at hr; cases hr
  intro p hp hrp
  simp only [SsspWorld.reserve_bins, hnext, hcs, hT] at hrp ⊢
  rcases (hres p).1 hrp with ⟨rfl, hrs⟩ | ⟨hne, hrp⟩
  · refine ⟨by simp [hrs], fun q hq hqp hrq => ?_⟩
    obtain ⟨-, hrq⟩ := (hres q).1 hrq |>.resolve_left (fun h' => hqp h'.1)
    simp only [hrs, hqp, and_true, if_true, false_and, if_false]
    exact .inr (old q hq hrq).1
  · obtain ⟨hle, hdis⟩ := old p hp hrp
    simp only [hne, false_and, if_false]
    refine ⟨by split_ifs <;> omega, fun q hq hqp hrq => ?_⟩
    rcases (hres q).1 hrq with ⟨rfl, hrs⟩ | ⟨hqne, hrq⟩
    · simp only [hrs, and_self, if_true]; exact .inl hle
    · simp only [hqne, false_and, if_false]; exact hdis q hq hqp hrq

theorem inv_reserve (h : Inv c w) {pe : Nat} (hpe : pe < (c.npes : Nat))
    (hr : (w.ranks pe).pc = .reserve) : Inv c (w.reserve pe) := by
  have hs0 : (w.ranks 0).pc.segment = .phase2 := by rw [← h.ctl.seg pe hpe, hr]; rfl
  have hlev : (w.reserve pe).level = w.level := by
    simp only [SsspWorld.level, SsspRank.next, SsspWorld.reserve_segment w hr,
      SsspWorld.reserve_iter, SsspWorld.reserve_sharedIndexes, SsspRank.curr]
  refine ⟨control_reserve h.ctl hpe hr, by rw [SsspWorld.reserve_dist]; exact h.sound,
    by rw [SsspWorld.reserve_dist]; exact h.src, fun q hq => ?_, fun q hq => ?_,
    by rw [SsspWorld.reserve_dist, hlev]; exact h.lower, fun u hu e he => ?_,
    fun _ => reservations_reserve h hpe hr hs0, fun h0 => ?_⟩
  · simp only [SsspWorld.reserve_bins, SsspWorld.reserve_binsSize]; exact h.bins q hq
  · rw [SsspWorld.reserve_pc, SsspWorld.reserve_dist, hlev]
    split_ifs
    · trivial
    · exact h.pc q hq
  · rw [SsspWorld.reserve_dist] at hu ⊢
    rcases h.covered u hu e he with hs | ⟨q, hq, hp⟩
    · exact .inl hs
    · rw [pending_phase2 (.inl (h.ctl.seg q hq ▸ hs0))] at hp
      exact .inr ⟨q, hq, .inl (by rw [SsspWorld.reserve_bins]; exact hp)⟩
  · have := w.reserve_segment hr 0
    rw [h0, hs0] at this; cases this

theorem SsspRank.withNextTail_nextTail (r : SsspRank) (t : Nat) : (r.withNextTail t).nextTail = t := by
  simp [SsspRank.withNextTail, SsspRank.nextTail]

theorem SsspRank.holds_withNextTail (r : SsspRank) (t g : Nat) :
    (r.withNextTail t).Holds g ↔ r.Holds g := Iff.rfl

theorem finish_frontierAt_reserved (h : Inv c w) (hw : w.AllAt c .wait3) {q : Nat}
    (hq : q < (c.npes : Nat)) (hres : (w.ranks q).next < (w.ranks q).binsSize) {j : Nat}
    (hj : j < ((w.ranks q).bins (w.ranks q).next).length) :
    (w.finish c).frontierAt (c.fp (w.ranks 0).nextTail) ((w.ranks q).copyStart + j) =
      ((w.ranks q).bins (w.ranks q).next).getD j 0 ∧
    (w.ranks q).copyStart + j < (w.ranks 0).nextTail := by
  have old := h.reservations (by rw [hw 0 c.npes.pos]; rfl)
  have hR : ∀ p < (c.npes : Nat), (w.ranks p).next < (w.ranks p).binsSize → Reserved w p :=
    fun p hp h' => ⟨hw p hp, h'⟩
  have hg : (w.ranks q).copyStart + j < (w.ranks 0).nextTail := by
    have := (old q hq (hR q hq hres)).1; omega
  refine ⟨?_, hg⟩
  have key := SsspWorld.frontierAt_scatter c hg (List.range c.npes) w.broadcastTail
    (List.nodup_range _) (fun p _ => by rw [SsspWorld.broadcastTail_ranks, SsspRank.withNextTail_nextTail])
    (fun p hp h' => (old p (List.mem_range.1 hp) (hR p (List.mem_range.1 hp) h')).1)
    (fun a ha b hb h1 h2 => by
      rw [SsspWorld.broadcastTail_ranks, SsspRank.holds_withNextTail] at h1 h2
      by_contra hne
      have := (old a (List.mem_range.1 ha) (hR a (List.mem_range.1 ha) h1.1)).2 b
        (List.mem_range.1 hb) (Ne.symm hne) (hR b (List.mem_range.1 hb) h2.1)
      unfold SsspRank.Holds at h1 h2; omega)
  rw [SsspWorld.finish_frontierAt, key.1 q (List.mem_range.2 hq)
    ⟨hres, Nat.le_add_right _ _, Nat.add_lt_add_left hj _⟩]
  show ((w.ranks q).bins (w.ranks q).next).getD ((w.ranks q).copyStart + j - (w.ranks q).copyStart) 0 = _
  rw [Nat.add_sub_cancel_left]

theorem inv_finish (h : Inv c w) (hw : w.AllAt c .wait3) : Inv c (w.finish c) := by
  have hs0 : (w.ranks 0).pc.segment = .phase2 := by rw [hw 0 c.npes.pos]; rfl
  have hseg' : ((w.finish c).ranks 0).pc.segment ≠ .phase2 := by
    rw [SsspWorld.finish_pc]; split_ifs <;> decide
  have hcurr : ∀ q, ((w.finish c).ranks q).curr = (w.ranks q).next := fun q => by
    simp only [SsspRank.curr, SsspRank.next, SsspWorld.finish_iter, SsspWorld.finish_sharedIndexes]
  have hnext : ∀ q < (c.npes : Nat), (w.ranks q).next = (w.ranks 0).next := fun q hq => by
    simp only [SsspRank.next, h.ctl.iter q hq, h.ctl.idx q hq]
  have hlev : (w.finish c).level = w.level := by
    simp only [SsspWorld.level, hseg', hs0, if_false, if_true, hcurr]
  refine ⟨control_finish h.ctl hw, by rw [SsspWorld.finish_dist]; exact h.sound,
    by rw [SsspWorld.finish_dist]; exact h.src, fun q hq b hb => ?_, fun q _ => ?_,
    by rw [SsspWorld.finish_dist, hlev]; exact h.lower, fun u hu e he => ?_,
    fun h2 => absurd h2 hseg', fun h0 => ?_⟩
  · rw [SsspWorld.finish_bins hq] at hb
    rw [SsspWorld.finish_binsSize]
    split_ifs at hb
    · rw [Function.update_apply] at hb
      split_ifs at hb
      · exact absurd rfl hb
      · exact h.bins q hq b hb
    · exact h.bins q hq b hb
  · rw [SsspWorld.finish_pc]; split_ifs <;> trivial
  · rw [SsspWorld.finish_dist] at hu ⊢
    rcases h.covered u hu e he with hs | ⟨q, hq, hp⟩
    · exact .inl hs
    rw [pending_phase2 (.inl (by rw [hw q hq]; rfl))] at hp
    refine .inr ?_
    by_cases hb : w.dist u / c.delta = (w.ranks q).next ∧ (w.ranks q).next < (w.ranks q).binsSize
    · -- the entry moved to the new frontier, where the next Phase 1 scans it
      rw [hb.1] at hp
      obtain ⟨j, hj, hget⟩ := List.getElem_of_mem hp
      obtain ⟨hfr, hg⟩ := finish_frontierAt_reserved h hw hq hb.2 hj
      have hp' := (c.fp (w.ranks 0).nextTail).recv_lt ((w.ranks q).copyStart + j)
      have hdu : w.dist u / c.delta < kMaxBin :=
        Nat.lt_of_le_of_lt (Nat.div_le_self _ _) (Nat.lt_trans hu (by decide))
      refine ⟨_, hp', .inr (.inr (.inl ⟨0, ?_,
        (c.fp (w.ranks 0).nextTail).localPos ((w.ranks q).copyStart + j), Nat.zero_le _, ?_, ?_, ?_⟩))⟩
      · rw [SsspWorld.finish_pc, if_pos (by rw [hnext _ hp', ← hnext q hq, ← hb.1]; omega)]; rfl
      · simp only [SsspCfg.sliceWidth, SsspRank.currTail, SsspWorld.finish_iter,
          SsspWorld.finish_frontierTails, Function.update_same]
        exact Partition.localPos_lt_width _ hg
      · rw [← SsspWorld.frontierAt, hfr]
        simp [List.getElem?_eq_getElem hj, hget]
      · rw [hcurr, hnext _ hp', ← hnext q hq, ← hb.1]; exact Nat.mul_div_le _ _
    · -- the entry stays in its bin
      refine ⟨q, hq, .inl ?_⟩
      rw [SsspWorld.finish_bins hq]
      split_ifs with hr
      · rw [Function.update_noteq (fun h' => hb ⟨h', hr⟩)]; exact hp
      · exact hp
  · rw [hcurr]; rw [SsspWorld.finish_pc] at h0
    split_ifs at h0 with hn
    exact not_not.1 hn

theorem fp_one_width_tail (c : SsspCfg) : (c.fp 1).width (c.npes - 1) = 1 := by
  show (c.fp 1).width ((c.fp 1).npes - 1) = 1
  rw [Partition.width_tail]
  simp only [Partition.maxWidth, Partition.partitionWidth, SsspCfg.fp]
  rcases Nat.lt_or_ge 1 c.npes with h | h
  · rw [Nat.div_eq_of_lt h, Nat.mul_zero]
  · have : (c.npes : Nat) = 1 := by have := c.npes.pos; omega
    simp [this]

theorem inv_init (hs : c.source < c.g.numNodes) : Inv c (ssspInit c) := by
  have hd : (ssspInit c).dist = Function.update (fun _ => kDistInf) c.source 0 := by
    simp only [ssspInit, if_pos hs]
  have hlev : (ssspInit c).level = 0 := rfl
  refine ⟨control_init c, fun v => ?_, by rw [hd, Function.update_same], fun _ _ b hb => absurd rfl hb,
    fun _ _ => trivial, by rw [hlev, Nat.mul_zero]; exact fun v hv => absurd hv (Nat.not_lt_zero _),
    fun u hu e _ => ?_, (fun h2 => by cases h2), fun h0 => by cases h0⟩
  · rw [hd, Function.update_apply]
    split_ifs with hv
    · subst hv; exact ⟨Nat.zero_le _, fun _ => .nil⟩
    · exact ⟨Nat.le_refl _, fun h => absurd h (Nat.lt_irrefl _)⟩
  · -- only the source is reached, and it sits in the tail rank's frontier slot 0
    have hu' : u = c.source := by
      by_contra hne; rw [hd, Function.update_noteq hne] at hu; exact Nat.lt_irrefl _ hu
    subst hu'
    refine .inr ⟨c.npes - 1, Nat.sub_lt c.npes.pos Nat.one_pos, .inr (.inr (.inl
      ⟨0, rfl, 0, Nat.le_refl _, ?_, by simp [ssspInit], by simp [ssspInit, SsspRank.curr]⟩))⟩
    show 0 < (c.fp 1).width (c.npes - 1)
    rw [fp_one_width_tail]; exact Nat.one_pos

theorem inv_step (h : Inv c w) {e : SsspEvent} (hs : ssspStep c w e = some w') : Inv c w' := by
  have hctl := control_step h.ctl hs
  rcases ssspStep_cases hs with ⟨pe, hpe, hact, rfl⟩ | ⟨pe, hpe, hr, rfl⟩ | ⟨hw, rfl⟩ |
      ⟨hw, rfl⟩ | ⟨hw, rfl⟩
  · exact inv_move h hpe hact (rankStep_move _ hact) (sameWords_rankStep pe)
  · exact inv_reserve h hpe hr
  · exact inv_fusion h hw hctl
  · exact inv_vote h hw
  · exact inv_finish h hw

theorem inv_of_reach (hs : c.source < c.g.numNodes) (h : SsspReach c w) : Inv c w := by
  induction h with
  | init => exact inv_init hs
  | step _ hst ih => exact inv_step ih hst

end DMM
