import DmmGapbs.Spec.Squish
import DmmGapbs.Proofs.Queue
import DmmGapbs.Proofs.MakeCsrBounds

/-! What `SquishCSR` makes of a rank's part of a CSR whose `index` is monotone, as `GenIndex`
leaves it. Its first loop writes each vertex's squished list at the front of that vertex's own
cells; `sq_offsets` gives each vertex exactly `diffs[i]` cells, all below `max_neigh`; and its copy
loop moves each list there, so the squished part lists for every vertex the squished list of its
cells. -/

namespace DMM

section Cells

theorem foldl_range'_inv {α : Type} (f : α → Nat → α) (P : Nat → α → Prop) (s n : Nat) {a : α}
    (h0 : P 0 a) (hs : ∀ K < n, ∀ b, P K b → P (K + 1) (f b (s + K))) :
    P n ((List.range' s n).foldl f a) := by
  suffices ∀ K ≤ n, P K ((List.range' s K).foldl f a) from this n le_rfl
  intro K hK
  induction K with
  | zero => exact h0
  | succ K ih =>
    rw [List.range'_concat, Nat.one_mul, List.foldl_append, List.foldl_cons, List.foldl_nil]
    exact hs K hK _ (ih (Nat.le_of_succ_le hK))

theorem copyInto_of_not_mem {dst src : Nat → Nat} {off len j : Nat} (h : j < off ∨ off + len ≤ j) :
    copyInto dst off len src j = dst j := if_neg (by omega)

theorem cells_copyInto_self (dst src : Nat → Nat) (off len : Nat) :
    cells (copyInto dst off len src) off len = cells src 0 len :=
  List.map_congr_left fun j hj => by
    rw [copyInto, if_pos (by have := List.mem_range.1 hj; omega), Nat.add_sub_cancel_left, Nat.zero_add]

theorem cells_getD (l : List Nat) : cells (fun j => l.getD j 0) 0 l.length = l :=
  List.ext_getElem (by simp) fun j _ h => by simp [cells, List.getElem?_eq_getElem h]

theorem CsrPart.neighOf_eq_cells (g : CsrPart) (i : Nat) :
    g.neighOf i = cells g.neighs (g.index i) (g.index (i + 1) - g.index i) := by
  rw [neighOf, List.range'_eq_map_range, List.map_map]; rfl

theorem squishNeigh_length_le (n : Nat) (l : List Nat) : (squishNeigh n l).length ≤ l.length := by
  unfold squishNeigh
  exact (List.length_filter_le _ _).trans
    ((List.destutter_sublist _ _).length_le.trans (List.length_mergeSort l).le)

end Cells

/-! ### `SquishCSR`'s first loop -/

/-- What `SquishCSR`'s first loop writes for local vertex `k` of rank `pe`. -/
def squishedOf (vp : Partition) (pe : Nat) (g : CsrPart) (k : Nat) : List Nat :=
  squishNeigh (vp.start pe + k) (g.neighOf k)

/-- What the first `K` turns of the first loop leave. -/
structure PassInv (vp : Partition) (pe : Nat) (g : CsrPart) (K : Nat) (s : CsrPart × (Nat → Nat)) :
    Prop where
  index : s.1.index = g.index
  diffs : ∀ k < K, s.2 k = (squishedOf vp pe g k).length
  front : ∀ k < K, cells s.1.neighs (g.index k) (squishedOf vp pe g k).length = squishedOf vp pe g k
  rest : ∀ j, (∀ k < K, j < g.index k ∨ g.index (k + 1) ≤ j) → s.1.neighs j = g.neighs j

section Pass

variable {vp : Partition} {pe : Nat} {g : CsrPart}

theorem squishedOf_length_le (k : Nat) :
    (squishedOf vp pe g k).length ≤ g.index (k + 1) - g.index k :=
  (squishNeigh_length_le _ (g.neighOf k)).trans (by rw [CsrPart.neighOf_eq_cells, cells_length])

theorem squishVertex_start_add (hpe : pe < vp.npes) {K : Nat} (hK : K < vp.width pe)
    {s : CsrPart × (Nat → Nat)} (hseg : s.1.neighOf K = g.neighOf K) :
    squishVertex vp s (vp.start pe + K) =
      (⟨s.1.index, copyInto s.1.neighs (s.1.index K) (squishedOf vp pe g K).length fun j =>
        (squishedOf vp pe g K).getD j 0⟩, Function.update s.2 K (squishedOf vp pe g K).length) := by
  simp only [squishVertex, vp.localPos_start_add hpe hK, hseg, squishedOf]

theorem PassInv.step (hg : Monotone g.index) (hpe : pe < vp.npes) {K : Nat} (hK : K < vp.width pe)
    {s : CsrPart × (Nat → Nat)} (h : PassInv vp pe g K s) :
    PassInv vp pe g (K + 1) (squishVertex vp s (vp.start pe + K)) := by
  have hlen : (squishedOf vp pe g K).length ≤ g.index (K + 1) - g.index K := squishedOf_length_le K
  have hseg : s.1.neighOf K = g.neighOf K := by
    rw [CsrPart.neighOf_eq_cells, CsrPart.neighOf_eq_cells, h.index]
    exact cells_congr fun j _ => h.rest _ fun k hk =>
      Or.inr ((hg (Nat.succ_le_of_lt hk)).trans (Nat.le_add_right _ _))
  rw [squishVertex_start_add hpe hK hseg, h.index]
  refine ⟨rfl, fun k hk => ?_, fun k hk => ?_, fun j hj => ?_⟩ <;> dsimp only
  · rcases Nat.lt_succ_iff_lt_or_eq.1 hk with hk | rfl
    · rw [Function.update_noteq (Nat.ne_of_lt hk), h.diffs k hk]
    · rw [Function.update_same]
  · rcases Nat.lt_succ_iff_lt_or_eq.1 hk with hk | rfl
    · have hk' : (squishedOf vp pe g k).length ≤ g.index (k + 1) - g.index k := squishedOf_length_le k
      have hmono := hg (show k + 1 ≤ K from hk)
      refine (cells_congr fun j hj => copyInto_of_not_mem (Or.inl ?_)).trans (h.front k hk)
      omega
    · exact (cells_copyInto_self _ _ _ _).trans (cells_getD _)
  · rw [copyInto_of_not_mem (by have := hj K (Nat.lt_succ_self K); omega)]
    exact h.rest j fun k hk => hj k (Nat.lt_succ_of_lt hk)

theorem squishPass_inv (hg : Monotone g.index) (hpe : pe < vp.npes) (d0 : Nat → Nat) :
    PassInv vp pe g (vp.width pe) (squishPass vp pe d0 g) :=
  foldl_range'_inv _ _ _ _ ⟨rfl, fun _ h => absurd h (Nat.not_lt_zero _),
    fun _ h => absurd h (Nat.not_lt_zero _), fun _ _ => rfl⟩
    fun _ hK _ h => h.step hg hpe hK

end Pass

/-! ### `sq_offsets` and the copy loop -/

section Copy

variable (vp : Partition) (pe : Nat) (d0 : Nat → Nat) (g : CsrPart)

theorem squishOffsets_mono : Monotone (squishOffsets vp pe d0 g) := fun _ _ h =>
  prefixSums_mono _ (min_le_min_right _ h)

theorem squishOffsets_succ {i : Nat} (hi : i < vp.width pe) :
    squishOffsets vp pe d0 g (i + 1) = squishOffsets vp pe d0 g i + (squishPass vp pe d0 g).2 i := by
  have := vp.width_le_maxWidth pe
  rw [squishOffsets, squishOffsets, min_eq_left (by omega), min_eq_left (by omega), prefixSums_succ]

theorem squishCopy_cells (hpe : pe < vp.npes) :
    ∀ k < vp.width pe, cells (squishCsr vp pe d0 g).neighs (squishOffsets vp pe d0 g k)
      ((squishPass vp pe d0 g).2 k) =
      cells (squishPass vp pe d0 g).1.neighs ((squishPass vp pe d0 g).1.index k)
        ((squishPass vp pe d0 g).2 k) := by
  refine foldl_range'_inv _ (fun K sq => ∀ k < K, cells sq (squishOffsets vp pe d0 g k)
    ((squishPass vp pe d0 g).2 k) = cells (squishPass vp pe d0 g).1.neighs
      ((squishPass vp pe d0 g).1.index k) ((squishPass vp pe d0 g).2 k)) _ _
    (fun _ h => absurd h (Nat.not_lt_zero _)) fun K hK sq h k hk => ?_
  simp only [squishCopyVertex, vp.localPos_start_add hpe hK]
  rcases Nat.lt_succ_iff_lt_or_eq.1 hk with hk | rfl
  · have hle := squishOffsets_mono vp pe d0 g (show k + 1 ≤ K from hk)
    rw [squishOffsets_succ vp pe d0 g (hk.trans hK)] at hle
    rw [← h k hk]
    refine cells_congr fun j hj => copyInto_of_not_mem (Or.inl ?_)
    omega
  · rw [cells_copyInto_self]
    simp only [cells, Nat.zero_add]

theorem squishCsr_neighOf (hg : Monotone g.index) (hpe : pe < vp.npes) {i : Nat} (hi : i < vp.width pe) :
    (squishCsr vp pe d0 g).neighOf i = squishedOf vp pe g i := by
  have hP := squishPass_inv hg hpe d0
  calc (squishCsr vp pe d0 g).neighOf i
      = cells (squishCsr vp pe d0 g).neighs (squishOffsets vp pe d0 g i)
          ((squishPass vp pe d0 g).2 i) := by
        rw [CsrPart.neighOf_eq_cells]
        simp only [squishCsr, squishOffsets_succ vp pe d0 g hi, Nat.add_sub_cancel_left]
    _ = cells (squishPass vp pe d0 g).1.neighs (g.index i) (squishedOf vp pe g i).length := by
        rw [squishCopy_cells vp pe d0 g hpe i hi, hP.index, hP.diffs i hi]
    _ = squishedOf vp pe g i := hP.front i hi

end Copy

/-- `SquishCSR` rebuilds rank `pe`'s part as a CSR of the squished lists, within `max_neigh`. -/
theorem squishCsr_rebuilds (vp : Partition) (d0 : Nat → Nat → Nat) {g : Nat → CsrPart} {pe : Nat}
    (hg : Monotone (g pe).index) (hpe : pe < vp.npes) :
    Monotone (squishCsr vp pe (d0 pe) (g pe)).index ∧
      (∀ i < vp.width pe, (squishCsr vp pe (d0 pe) (g pe)).neighOf i =
        squishNeigh (vp.start pe + i) ((g pe).neighOf i)) ∧
      ∀ i < vp.width pe, (squishCsr vp pe (d0 pe) (g pe)).index i + (squishPass vp pe (d0 pe) (g pe)).2 i =
        (squishCsr vp pe (d0 pe) (g pe)).index (i + 1) ∧
        (squishCsr vp pe (d0 pe) (g pe)).index (i + 1) ≤ squishMaxNeigh vp d0 g := by
  refine ⟨squishOffsets_mono _ _ _ _, fun i hi => squishCsr_neighOf _ _ _ _ hg hpe hi,
    fun i hi => ⟨(squishOffsets_succ _ _ _ _ hi).symm, ?_⟩⟩
  exact (squishOffsets_mono _ _ _ _ (Nat.succ_le_of_lt hi)).trans
    (le_foldl_max _ _ (List.mem_map_of_mem _ (List.mem_range.2 hpe)))

/-- Two vertices on one rank, three cells each: `[1, 0, 1]` and `[2, 1, 1]`. -/
def tripleCsr : CsrPart := ⟨fun i => 3 * i, fun j => [1, 0, 1, 2, 1, 1].getD j 0⟩

theorem squishCsr_rebuilds_tripleCsr : Monotone tripleCsr.index ∧ 0 < 1 ∧
    Monotone (squishCsr ⟨2, 1, by decide⟩ 0 0 tripleCsr).index ∧
      (∀ i < Partition.width ⟨2, 1, by decide⟩ 0, (squishCsr ⟨2, 1, by decide⟩ 0 0 tripleCsr).neighOf i =
        squishNeigh (Partition.start ⟨2, 1, by decide⟩ 0 + i) (tripleCsr.neighOf i)) ∧
      ∀ i < Partition.width ⟨2, 1, by decide⟩ 0, (squishCsr ⟨2, 1, by decide⟩ 0 0 tripleCsr).index i +
          (squishPass ⟨2, 1, by decide⟩ 0 0 tripleCsr).2 i = (squishCsr ⟨2, 1, by decide⟩ 0 0 tripleCsr).index (i + 1) ∧
        (squishCsr ⟨2, 1, by decide⟩ 0 0 tripleCsr).index (i + 1) ≤
          squishMaxNeigh ⟨2, 1, by decide⟩ (fun _ => 0) fun _ => tripleCsr :=
  have hg : Monotone tripleCsr.index := fun _ _ h => Nat.mul_le_mul_left 3 h
  ⟨hg, Nat.one_pos, squishCsr_rebuilds ⟨2, 1, by decide⟩ (fun _ => 0) (g := fun _ => tripleCsr) hg Nat.one_pos⟩

end DMM
