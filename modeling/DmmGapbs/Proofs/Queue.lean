import DmmGapbs.Spec.Queue

/-! What a round of queue buffer use leaves in the ranks' queues. On one rank a flush appends the
staged items and `slide_window` exposes exactly them. On two or more ranks every flush hands the
other ranks `copy_start + local_size` where the flusher keeps `copy_start + in`, so a round in
which no buffer fills up always ends with ranks that disagree on `shared_in`. -/

namespace DMM

open QueueBuffer QueueWorld

def cells (f : Nat → Nat) (off len : Nat) : List Nat := (List.range len).map fun i => f (off + i)

@[simp] theorem cells_length (f : Nat → Nat) (off len : Nat) : (cells f off len).length = len := by
  simp [cells]

theorem cells_add (f : Nat → Nat) (off a b : Nat) :
    cells f off (a + b) = cells f off a ++ cells f (off + a) b := by
  simp [cells, List.range_add, Nat.add_assoc]

theorem cells_congr {f g : Nat → Nat} {off len : Nat} (h : ∀ i < len, f (off + i) = g (off + i)) :
    cells f off len = cells g off len :=
  List.map_congr_left fun i hi => h i (List.mem_range.1 hi)

theorem cells_copyInto (dst src : Nat → Nat) {base off : Nat} (h : base ≤ off) (len : Nat) :
    cells (copyInto dst off len src) base (off - base + len) =
      cells dst base (off - base) ++ cells src 0 len := by
  rw [cells_add]
  congr 1
  · exact cells_congr fun i hi => by simp only [copyInto]; rw [if_neg (by omega)]
  · simp only [cells]
    exact List.map_congr_left fun i hi => by
      have := List.mem_range.1 hi
      simp only [copyInto]; rw [if_pos (by omega)]; congr 1; omega

theorem cells_stage (b : QueueBuffer) (x : Nat) :
    cells (b.stage x).localQueue 0 (b.stage x).count = cells b.localQueue 0 b.count ++ [x] := by
  simp only [stage, cells, List.range_succ, List.map_append, List.map_singleton, Nat.zero_add,
    Function.update_same]
  congr 1
  exact List.map_congr_left fun i hi =>
    Function.update_noteq (Nat.ne_of_lt (List.mem_range.1 hi)) _ _

@[simp] theorem slideBy_sharedIn (w : QueueWorld) (pe i : Nat) :
    ((w.slideBy pe).queues i).sharedIn = (w.queues i).sharedIn := by
  by_cases h : i = pe
  · subst h; simp [slideBy]
  · simp [slideBy, Function.update_noteq h]

theorem pushBack_of_ne (w : QueueWorld) {npes pe x : Nat} (h : (w.bufs pe).count ≠ kLocalSize) :
    w.pushBack npes pe x = { w with bufs := Function.update w.bufs pe ((w.bufs pe).stage x) } := by
  simp [pushBack, h]

/-! ### Two or more ranks -/

section Desync

variable {npes : Nat} {items : Nat → List Nat}

/-- How many items rank `pe`'s buffer holds in a round in which no buffer fills up. -/
def StagedOk (items : Nat → List Nat) (w : QueueWorld) (pe : Nat) : Prop :=
  match w.pcs pe with
  | .stage rest => (w.bufs pe).count + rest.length = (items pe).length
  | .flush => (w.bufs pe).count = (items pe).length
  | _ => True

/-- Once some rank has flushed, two ranks disagree on `shared_in`. -/
structure Desync (npes : Nat) (items : Nat → List Nat) (w : QueueWorld) : Prop where
  staged : ∀ pe < npes, StagedOk items w pe
  out : ∀ pe, npes ≤ pe → w.pcs pe = .done
  split : (∃ pe < npes, w.pcs pe = .slide ∨ w.pcs pe = .done) →
    ∃ i < npes, ∃ j < npes, (w.queues i).sharedIn ≠ (w.queues j).sharedIn

theorem desync_init (q : SlidingQueue) : Desync npes items (queueInit npes items q) := by
  refine ⟨fun pe hpe => ?_, fun pe hpe => ?_, fun ⟨pe, hpe, h⟩ => ?_⟩
  · simp [StagedOk, queueInit, hpe, QueueBuffer.fresh]
  · simp [queueInit, Nat.not_lt.2 hpe]
  · simp [queueInit, hpe] at h

theorem Desync.split_of_queues {w w' : QueueWorld} (h : Desync npes items w) (pe : Nat)
    (hq : w'.queues = w.queues) (hpc : ∀ p ≠ pe, w'.pcs p = w.pcs p)
    (hpe : w'.pcs pe ≠ .slide ∧ w'.pcs pe ≠ .done) :
    (∃ p < npes, w'.pcs p = .slide ∨ w'.pcs p = .done) →
      ∃ i < npes, ∃ j < npes, (w'.queues i).sharedIn ≠ (w'.queues j).sharedIn := by
  rintro ⟨p, hp, hs⟩
  have hne : p ≠ pe := by rintro rfl; tauto
  rw [hq]; exact h.split ⟨p, hp, by rwa [← hpc p hne]⟩

theorem exists_other (hN : 2 ≤ npes) (pe : Nat) : ∃ j < npes, j ≠ pe :=
  if h : pe = 0 then ⟨1, by omega, by omega⟩ else ⟨0, by omega, Ne.symm h⟩

theorem desync_step (hN : 2 ≤ npes) (hsmall : ∀ pe < npes, (items pe).length < kLocalSize)
    {w : QueueWorld} (h : Desync npes items w) (pe : Nat) :
    Desync npes items (queueStep npes w pe) := by
  by_cases hpe : pe < npes
  swap
  · simp [queueStep, h.out pe (Nat.le_of_not_lt hpe), h]
  have hs := h.staged pe hpe
  -- the other ranks' pcs and buffers are untouched
  have frame : ∀ (w' : QueueWorld), (∀ p ≠ pe, w'.pcs p = w.pcs p ∧ w'.bufs p = w.bufs p) →
      (StagedOk items w' pe) → ∀ p < npes, StagedOk items w' p := by
    intro w' hf hown p hp
    by_cases hpp : p = pe
    · subst hpp; exact hown
    · have := h.staged p hp
      simp only [StagedOk, (hf p hpp).1, (hf p hpp).2] at this ⊢; exact this
  have out' : ∀ (w' : QueueWorld), (∀ p ≠ pe, w'.pcs p = w.pcs p) → ∀ p, npes ≤ p → w'.pcs p = .done :=
    fun w' hf p hp => by rw [hf p (by omega)]; exact h.out p hp
  unfold queueStep
  split
  · next hpc =>
    simp only [StagedOk, hpc, List.length_nil, Nat.add_zero] at hs
    refine ⟨frame _ (fun p hp => by simp [Function.update_noteq hp]) (by simp [StagedOk, hs]),
      out' _ (fun p hp => by simp [Function.update_noteq hp]),
      h.split_of_queues pe rfl (fun p hp => by simp [Function.update_noteq hp]) (by simp)⟩
  · next x rest hpc =>
    simp only [StagedOk, hpc, List.length_cons] at hs
    have hne : (w.bufs pe).count ≠ kLocalSize := by have := hsmall pe hpe; omega
    rw [pushBack_of_ne w hne]
    refine ⟨frame _ (fun p hp => by simp [Function.update_noteq hp]) ?_,
      out' _ (fun p hp => by simp [Function.update_noteq hp]),
      h.split_of_queues pe rfl (fun p hp => by simp [Function.update_noteq hp]) (by simp)⟩
    simp [StagedOk]; omega
  · next hpc =>
    simp only [StagedOk, hpc] at hs
    obtain ⟨j, hj, hjne⟩ := exists_other hN pe
    refine ⟨frame _ (fun p hp => ?_) (by simp [StagedOk]),
      out' _ (fun p hp => by simp [Function.update_noteq hp]), fun _ => ⟨pe, hpe, j, hj, ?_⟩⟩
    · simp [flushBy, Function.update_noteq hp]
    · simp only [setPc_queues, flushBy, flush_self, flush_other _ _ _ _ hjne hj]
      have := hsmall pe hpe; omega
  · next hpc =>
    refine ⟨frame _ (fun p hp => by simp [Function.update_noteq hp]) (by simp [StagedOk]),
      out' _ (fun p hp => by simp [Function.update_noteq hp]), fun _ => ?_⟩
    obtain ⟨i, hi, j, hj, hij⟩ := h.split ⟨pe, hpe, .inl hpc⟩
    exact ⟨i, hi, j, hj, by simpa using hij⟩
  · exact h

theorem queueRun_sharedIn_split (hN : 2 ≤ npes)
    (hsmall : ∀ pe < npes, (items pe).length < kLocalSize) (q : SlidingQueue) (sched : List Nat)
    (hdone : ∀ pe < npes, (queueRun npes (queueInit npes items q) sched).pcs pe = .done) :
    ∃ i < npes, ∃ j < npes, ((queueRun npes (queueInit npes items q) sched).queues i).sharedIn ≠
      ((queueRun npes (queueInit npes items q) sched).queues j).sharedIn := by
  have key : ∀ (sched : List Nat) (w : QueueWorld), Desync npes items w →
      Desync npes items (queueRun npes w sched) := by
    intro sched
    induction sched with
    | nil => exact fun _ h => h
    | cons pe rest ih => exact fun w h => ih _ (desync_step hN hsmall h pe)
  exact (key sched _ (desync_init q)).split ⟨0, by omega, .inr (hdone 0 (by omega))⟩

end Desync

/-! ### One rank -/

section Solo

variable {items : Nat → List Nat} {s : Nat}

/-- Where rank 0's items are in a one-rank round started at `shared_in = s`. -/
def SoloOk (items : List Nat) (s : Nat) (w : QueueWorld) : Prop :=
  match w.pcs 0 with
  | .stage rest => s ≤ (w.queues 0).sharedIn ∧ (w.queues 0).sharedOutEnd = s ∧
      (w.bufs 0).count ≤ kLocalSize ∧
      cells (w.queues 0).shared s ((w.queues 0).sharedIn - s) ++
        cells (w.bufs 0).localQueue 0 (w.bufs 0).count ++ rest = items
  | .flush => s ≤ (w.queues 0).sharedIn ∧ (w.queues 0).sharedOutEnd = s ∧
      cells (w.queues 0).shared s ((w.queues 0).sharedIn - s) ++
        cells (w.bufs 0).localQueue 0 (w.bufs 0).count = items
  | .slide => s ≤ (w.queues 0).sharedIn ∧ (w.queues 0).sharedOutEnd = s ∧
      cells (w.queues 0).shared s ((w.queues 0).sharedIn - s) = items
  | .done => (w.queues 0).window = items ∧ (w.queues 0).sharedIn = s + items.length

structure Solo (items : List Nat) (s : Nat) (w : QueueWorld) : Prop where
  ok : SoloOk items s w
  out : ∀ pe, pe ≠ 0 → w.pcs pe = .done

theorem cells_flush_single (w : QueueWorld) (hs : s ≤ (w.queues 0).sharedIn) :
    cells ((w.flushBy 1 0).queues 0).shared s (((w.flushBy 1 0).queues 0).sharedIn - s) =
      cells (w.queues 0).shared s ((w.queues 0).sharedIn - s) ++
        cells (w.bufs 0).localQueue 0 (w.bufs 0).count := by
  simp only [flushBy, flush_self]
  rw [show (w.queues 0).sharedIn + (w.bufs 0).count - s =
      (w.queues 0).sharedIn - s + (w.bufs 0).count by omega]
  exact cells_copyInto _ _ hs _

theorem solo_step {w : QueueWorld} (h : Solo (items 0) s w) (pe : Nat) :
    Solo (items 0) s (queueStep 1 w pe) := by
  by_cases hpe : pe = 0
  swap
  · simp [queueStep, h.out pe hpe, h]
  subst hpe
  have hok := h.ok
  have out' : ∀ (w' : QueueWorld), (∀ p ≠ 0, w'.pcs p = w.pcs p) → ∀ p, p ≠ 0 → w'.pcs p = .done :=
    fun w' hf p hp => by rw [hf p hp]; exact h.out p hp
  unfold queueStep
  split
  · next hpc =>
    simp only [SoloOk, hpc, List.append_nil] at hok
    exact ⟨by simpa [SoloOk] using ⟨hok.1, hok.2.1, hok.2.2.2⟩,
      out' _ fun p hp => by simp [Function.update_noteq hp]⟩
  · next x rest hpc =>
    simp only [SoloOk, hpc] at hok
    obtain ⟨hs, hend, hle, hcells⟩ := hok
    refine ⟨?_, out' _ fun p hp => by simp [Function.update_noteq hp]⟩
    by_cases hfull : (w.bufs 0).count = kLocalSize
    · have hw : w.pushBack 1 0 x =
          { w.flushBy 1 0 with bufs := Function.update (w.flushBy 1 0).bufs 0 (QueueBuffer.stage ⟨0, (w.bufs 0).localQueue⟩ x) } := by
        simp [pushBack, hfull, flushBy]
      have hf := cells_flush_single w hs
      rw [hw]
      simp only [SoloOk, setPc_pcs, Function.update_same, setPc_queues, setPc_bufs]
      refine ⟨by simp [flushBy]; omega, by simpa [flushBy] using hend, by simp [flushBy, stage]; decide, ?_⟩
      rw [hf, ← hcells]
      simp [flushBy, cells, stage, List.range_succ]
    · rw [pushBack_of_ne w hfull]
      simp only [SoloOk, setPc_pcs, Function.update_same, setPc_queues, setPc_bufs]
      refine ⟨hs, hend, by simp; omega, ?_⟩
      rw [cells_stage, ← hcells]
      simp
  · next hpc =>
    simp only [SoloOk, hpc] at hok
    obtain ⟨hs, hend, hcells⟩ := hok
    refine ⟨?_, out' _ fun p hp => by simp [Function.update_noteq hp]⟩
    simp only [SoloOk, setPc_pcs, Function.update_same, setPc_queues]
    exact ⟨by simp [flushBy]; omega, by simpa [flushBy] using hend,
      (cells_flush_single w hs).trans hcells⟩
  · next hpc =>
    simp only [SoloOk, hpc] at hok
    obtain ⟨hs, hend, hcells⟩ := hok
    refine ⟨?_, out' _ fun p hp => by simp [Function.update_noteq hp]⟩
    have hlen := congrArg List.length hcells
    simp only [cells_length] at hlen
    simp only [SoloOk, setPc_pcs, Function.update_same, setPc_queues, slideBy]
    refine ⟨?_, by simp; omega⟩
    simpa [SlidingQueue.window, SlidingQueue.size, SlidingQueue.slideWindow, hend] using hcells
  · exact h

theorem queueRun_single (items : Nat → List Nat) (q : SlidingQueue)
    (hq : q.sharedOutEnd = q.sharedIn) (sched : List Nat)
    (hdone : (queueRun 1 (queueInit 1 items q) sched).pcs 0 = .done) :
    ((queueRun 1 (queueInit 1 items q) sched).queues 0).window = items 0 ∧
      ((queueRun 1 (queueInit 1 items q) sched).queues 0).sharedIn = q.sharedIn + (items 0).length := by
  have key : ∀ (sched : List Nat) (w : QueueWorld), Solo (items 0) q.sharedIn w →
      Solo (items 0) q.sharedIn (queueRun 1 w sched) := by
    intro sched
    induction sched with
    | nil => exact fun _ h => h
    | cons pe rest ih => exact fun w h => ih _ (solo_step h pe)
  have h0 : Solo (items 0) q.sharedIn (queueInit 1 items q) :=
    ⟨by simp [SoloOk, queueInit, hq, cells, QueueBuffer.fresh],
      fun pe hpe => by simp [queueInit]; omega⟩
  have := (key sched _ h0).ok
  simp only [SoloOk, hdone] at this
  exact this

end Solo

/-- Two ranks run `BitmapToQueue` on a bitmap with only vertex 1 set. -/
def oneBitRound : QueueWorld :=
  queueRun 2 (queueInit 2 (bitmapToQueueItems ⟨4, 2, by decide⟩ (· == 1)) SlidingQueue.init)
    [0, 0, 0, 0, 1, 1, 1]

theorem oneBitRound_desync : (∀ pe < 2, oneBitRound.pcs pe = .done) ∧
    (oneBitRound.queues 0).sharedIn = 2 * kLocalSize ∧
    (oneBitRound.queues 1).sharedIn = kLocalSize ∧
    (oneBitRound.queues 0).window = [1] ∧ (oneBitRound.queues 1).size = kLocalSize := by
  decide

end DMM
