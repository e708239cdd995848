import Mathlib.Order.Basic
import Mathlib.Tactic.Common

/-! The block partition every partitioned vector of the kernels uses: `n` global ids over
`npes` ranks, `n / npes` ids a rank, the tail rank taking the remainder. -/

namespace DMM

/-- `Partition<T>` and `OldePartition<T>` as the spec gives them (their header is not among the
sources). When `n < N` the spec's `owner` divides by zero; the model gives every id to the tail. -/
structure Partition where
  n : Nat
  npes : Nat
  npes_pos : 0 < npes

namespace Partition

variable (p : Partition)

def partitionWidth : Nat := p.n / p.npes

def maxWidth : Nat := p.n - (p.npes - 1) * p.partitionWidth

def start (pe : Nat) : Nat := pe * p.partitionWidth

/-- `end` of the source. -/
def stop (pe : Nat) : Nat := if pe = p.npes - 1 then p.n else p.start pe + p.partitionWidth

def recv (x : Nat) : Nat :=
  if p.partitionWidth = 0 then p.npes - 1 else Nat.min (x / p.partitionWidth) (p.npes - 1)

def localPos (x : Nat) : Nat := x - p.recv x * p.partitionWidth

/-- How many ids rank `pe` holds: `end - start`. -/
def width (pe : Nat) : Nat := p.stop pe - p.start pe

theorem npes_mul_le : p.npes * p.partitionWidth ≤ p.n := by
  rw [Nat.mul_comm]; exact Nat.div_mul_le_self _ _

theorem tail_mul_add : (p.npes - 1) * p.partitionWidth + p.partitionWidth =
    p.npes * p.partitionWidth := by
  rw [← Nat.succ_mul, Nat.succ_eq_add_one, Nat.sub_add_cancel p.npes_pos]

theorem width_mul_le : (p.npes - 1) * p.partitionWidth ≤ p.n := by
  have := p.npes_mul_le; have := p.tail_mul_add; omega

theorem stop_tail : p.stop (p.npes - 1) = p.n := by simp [stop]

theorem stop_of_ne {pe : Nat} (h : pe ≠ p.npes - 1) : p.stop pe = p.start pe + p.partitionWidth := by
  simp [stop, h]

theorem start_succ (pe : Nat) : p.start (pe + 1) = p.start pe + p.partitionWidth := by
  simp [start, Nat.succ_mul]

theorem start_le_start {a b : Nat} (h : a ≤ b) : p.start a ≤ p.start b :=
  Nat.mul_le_mul_right _ h

theorem start_tail_le : p.start (p.npes - 1) ≤ p.n := p.width_mul_le

theorem start_le_stop {pe : Nat} (h : pe < p.npes) : p.start pe ≤ p.stop pe := by
  by_cases ht : pe = p.npes - 1
  · subst ht; rw [p.stop_tail]; exact p.start_tail_le
  · rw [p.stop_of_ne ht]; omega

theorem stop_le_n {pe : Nat} (h : pe < p.npes) : p.stop pe ≤ p.n := by
  by_cases ht : pe = p.npes - 1
  · rw [ht]; exact Nat.le_of_eq p.stop_tail
  · rw [p.stop_of_ne ht, ← p.start_succ]
    exact Nat.le_trans (p.start_le_start (show pe + 1 ≤ p.npes - 1 by omega)) p.start_tail_le

theorem stop_eq_start_succ {pe : Nat} (h : pe + 1 < p.npes) : p.stop pe = p.start (pe + 1) := by
  rw [p.stop_of_ne (by omega), p.start_succ]

theorem width_tail : p.width (p.npes - 1) = p.maxWidth := by
  simp only [width, stop_tail, start, maxWidth]

theorem width_of_ne {pe : Nat} (h : pe ≠ p.npes - 1) : p.width pe = p.partitionWidth := by
  simp only [width, p.stop_of_ne h]; omega

theorem maxWidth_lt (h2 : 2 ≤ p.npes) (hn : p.npes ≤ p.n) : p.maxWidth < p.n := by
  have hw : 1 ≤ p.partitionWidth := (Nat.le_div_iff_mul_le p.npes_pos).2 (by omega)
  have : 1 * 1 ≤ (p.npes - 1) * p.partitionWidth := Nat.mul_le_mul (by omega) hw
  unfold maxWidth
  omega

theorem width_le_maxWidth (pe : Nat) : p.width pe ≤ p.maxWidth := by
  by_cases ht : pe = p.npes - 1
  · rw [ht]; exact Nat.le_of_eq p.width_tail
  · rw [p.width_of_ne ht]
    have := p.npes_mul_le; have := p.tail_mul_add
    simp only [maxWidth]; omega

theorem recv_lt (x : Nat) : p.recv x < p.npes := by
  have := p.npes_pos
  unfold recv Nat.min; split_ifs <;> omega

theorem recv_mul_le (x : Nat) : p.recv x * p.partitionWidth ≤ x := by
  unfold recv
  split_ifs with h
  · simp [h]
  · calc Nat.min (x / p.partitionWidth) (p.npes - 1) * p.partitionWidth
        ≤ x / p.partitionWidth * p.partitionWidth := Nat.mul_le_mul_right _ (Nat.min_le_left _ _)
      _ ≤ x := Nat.div_mul_le_self x _

theorem start_recv_add (x : Nat) : p.start (p.recv x) + p.localPos x = x := by
  have := p.recv_mul_le x
  simp only [start, localPos]; omega

theorem lt_stop_recv {x : Nat} (hx : x < p.n) : x < p.stop (p.recv x) := by
  unfold stop
  split_ifs with ht
  · exact hx
  · have hw : p.partitionWidth ≠ 0 := by intro h0; simp [recv, h0] at ht
    have hr : p.recv x = x / p.partitionWidth := by
      unfold recv; simp only [hw, if_false]
      rcases Nat.lt_or_ge (x / p.partitionWidth) (p.npes - 1) with h | h
      · exact Nat.min_eq_left (Nat.le_of_lt h)
      · exfalso; apply ht; unfold recv; simp only [hw, if_false]; exact Nat.min_eq_right h
    have h1 := Nat.div_add_mod x p.partitionWidth
    have h2 := Nat.mod_lt x (Nat.pos_of_ne_zero hw)
    rw [Nat.mul_comm] at h1
    simp only [start, hr]; omega

theorem localPos_lt_width {x : Nat} (hx : x < p.n) : p.localPos x < p.width (p.recv x) := by
  have h1 := p.start_recv_add x
  have h2 := p.lt_stop_recv hx
  simp only [width]; omega

theorem recv_n : p.recv p.n = p.npes - 1 := by
  unfold recv
  split_ifs with h
  · rfl
  · exact Nat.min_eq_right ((Nat.le_div_iff_mul_le (Nat.pos_of_ne_zero h)).2 p.width_mul_le)

theorem localPos_le_width {x : Nat} (hx : x ≤ p.n) : p.localPos x ≤ p.width (p.recv x) := by
  rcases Nat.lt_or_eq_of_le hx with hx | rfl
  · exact Nat.le_of_lt (p.localPos_lt_width hx)
  · have := p.start_recv_add p.n
    rw [p.recv_n] at this ⊢
    simp only [width, stop_tail]; omega

theorem recv_eq_of_mem {x pe : Nat} (hpe : pe < p.npes) (h1 : p.start pe ≤ x)
    (h2 : x < p.stop pe) : p.recv x = pe := by
  have hx : x < p.n := by
    have := p.start_le_stop hpe
    unfold stop at h2; split_ifs at h2 with ht
    · exact h2
    · have := p.width_mul_le
      have : pe * p.partitionWidth + p.partitionWidth ≤ (p.npes - 1) * p.partitionWidth := by
        rw [← Nat.succ_mul]; exact Nat.mul_le_mul_right _ (by omega)
      simp only [start] at h2; omega
  have hr := p.recv_lt x
  have a1 := p.start_recv_add x
  have a2 := p.lt_stop_recv hx
  by_contra hne
  rcases Nat.lt_or_gt_of_ne hne with hl | hl
  · -- the owner's range ends before `start pe`
    have : p.stop (p.recv x) ≤ p.start pe := by
      rw [p.stop_eq_start_succ (by omega)]
      exact Nat.mul_le_mul_right _ hl
    omega
  · have : p.stop pe ≤ p.start (p.recv x) := by
      rw [p.stop_eq_start_succ (by omega)]
      exact Nat.mul_le_mul_right _ hl
    omega

theorem recv_start_add {pe i : Nat} (hpe : pe < p.npes) (hi : i < p.width pe) :
    p.recv (p.start pe + i) = pe :=
  p.recv_eq_of_mem hpe (Nat.le_add_right _ _) (by simp only [width] at hi; omega)

theorem localPos_start_add {pe i : Nat} (hpe : pe < p.npes) (hi : i < p.width pe) :
    p.localPos (p.start pe + i) = i := by
  have := p.start_recv_add (p.start pe + i)
  rw [p.recv_start_add hpe hi] at this; omega

theorem range'_zero_append (m n : Nat) :
    List.range' 0 m ++ List.range' m n = List.range' 0 (m + n) := by
  have := List.range'_append 0 m n 1
  rw [Nat.one_mul, Nat.zero_add] at this; rw [this, Nat.add_comm]

theorem flatMap_ranges :
    (List.range p.npes).flatMap (fun pe => List.range' (p.start pe) (p.width pe)) = List.range p.n := by
  have head : ∀ k < p.npes,
      (List.range k).flatMap (fun pe => List.range' (p.start pe) (p.width pe)) = List.range' 0 (p.start k) := by
    intro k
    induction k with
    | zero => intro _; simp [start]
    | succ k ih =>
      intro hk
      rw [List.range_succ, List.flatMap_append, ih (by omega), List.flatMap_singleton,
        p.width_of_ne (by omega), range'_zero_append, p.start_succ]
  have hsplit : p.npes = p.npes - 1 + 1 := by have := p.npes_pos; omega
  rw [hsplit, List.range_succ, List.flatMap_append, head _ (by omega), List.flatMap_singleton,
    range'_zero_append, width, Nat.add_sub_cancel' (p.start_le_stop (by omega)), p.stop_tail,
    List.range_eq_range']

theorem addr_injective {x y : Nat} (h1 : p.recv x = p.recv y) (h2 : p.localPos x = p.localPos y) :
    x = y := by
  rw [← p.start_recv_add x, ← p.start_recv_add y, h1, h2]

end Partition

end DMM
