import DmmGapbs.Spec.PrefixSum
import DmmGapbs.Spec.Builder
import Mathlib.Algebra.BigOperators.Ring

/-! `ParallelPrefixSum` computes `PrefixSum` for every `degrees` vector and every block size:
the blocks tile `degrees`, `bulk_prefix[block]` is the sum of the blocks before it, and the
loop over a concatenation is the loops over its parts. -/

namespace DMM

theorem scanLoop_snd (t : Int) (ds : List Int) : (scanLoop t ds).2 = t + ds.sum := by
  induction ds generalizing t with
  | nil => simp [scanLoop]
  | cons d ds ih => simp [scanLoop, ih, add_assoc]

theorem scanLoop_append (t : Int) (a b : List Int) :
    (scanLoop t (a ++ b)).1 = (scanLoop t a).1 ++ (scanLoop (t + a.sum) b).1 := by
  induction a generalizing t with
  | nil => simp [scanLoop]
  | cons d a ih => simp [scanLoop, ih, add_assoc]

theorem scanLoop_fst (t : Int) (ds : List Int) :
    (scanLoop t ds).1 = (List.range ds.length).map fun i => t + (ds.take i).sum := by
  induction ds generalizing t with
  | nil => rfl
  | cons d ds ih => simp [scanLoop, ih, List.range_succ_eq_map, add_assoc]

theorem prefixSum_eq (degrees : List Int) :
    prefixSum degrees = (List.range (degrees.length + 1)).map fun i => (degrees.take i).sum := by
  simp [prefixSum, scanLoop_fst, scanLoop_snd, List.range_succ]

section Blocks

variable {bs : Nat} (S : List Int)

theorem blockOf_eq (b : Nat) : blockOf bs S b = (S.drop (b * bs)).take bs := by
  rw [blockOf, List.take_eq_take, List.length_drop, Nat.succ_mul]; omega

theorem flatMap_blockOf (k : Nat) : (List.range k).flatMap (blockOf bs S) = S.take (k * bs) := by
  induction k with
  | zero => simp
  | succ k ih =>
    rw [List.range_succ, List.flatMap_append, ih, List.flatMap_singleton, blockOf_eq, Nat.succ_mul,
      List.take_add]

theorem sum_blockOf (k : Nat) :
    ((List.range k).map fun b => (blockOf bs S b).sum).sum = (S.take (k * bs)).sum := by
  rw [← flatMap_blockOf, List.flatMap, List.sum_flatten, List.map_map]; rfl

theorem flatMap_scanLoop_blockOf (k : Nat) :
    (List.range k).flatMap (fun b => (scanLoop (S.take (b * bs)).sum (blockOf bs S b)).1) =
      (scanLoop 0 (S.take (k * bs))).1 := by
  induction k with
  | zero => simp [scanLoop]
  | succ k ih =>
    rw [List.range_succ, List.flatMap_append, ih, List.flatMap_singleton, Nat.succ_mul,
      List.take_add, scanLoop_append, zero_add, ← blockOf_eq]

theorem length_le_numBlocks (hbs : 0 < bs) : S.length ≤ (S.length + bs - 1) / bs * bs := by
  have h1 := Nat.div_add_mod (S.length + bs - 1) bs
  have h2 := Nat.mod_lt (S.length + bs - 1) hbs
  rw [Nat.mul_comm] at h1; omega

theorem bulkPrefix_getD {nb b : Nat} (hb : b < nb) :
    (scanLoop 0 ((List.range nb).map fun b => (blockOf bs S b).sum)).1.getD b 0 =
      (S.take (b * bs)).sum := by
  simp [scanLoop_fst, hb, ← List.map_take, List.take_range, Nat.min_eq_left hb.le, sum_blockOf]

theorem parallelPrefixSumWith_eq (hbs : 0 < bs) : parallelPrefixSumWith bs S = prefixSum S := by
  have hS := List.take_of_length_le (length_le_numBlocks S hbs)
  have hsum : ∀ l : List Int, l.foldl (· + ·) 0 = l.sum := fun l => List.sum_eq_foldl.symm
  simp only [parallelPrefixSumWith, hsum]
  rw [List.flatMap, List.map_congr_left fun b hb => by
      rw [bulkPrefix_getD S (List.mem_range.1 hb)], ← List.flatMap, flatMap_scanLoop_blockOf, hS,
    scanLoop_snd, sum_blockOf, hS, prefixSum, scanLoop_snd]

end Blocks

/-- `ParallelPrefixSum` equals `PrefixSum` on every `degrees`, whatever its length. -/
theorem parallelPrefixSum_eq_prefixSum (degrees : List Int) :
    parallelPrefixSum degrees = prefixSum degrees ∧
      (prefixSum degrees).length = degrees.length + 1 ∧
      ∀ i ≤ degrees.length, (prefixSum degrees).getD i 0 = (degrees.take i).sum := by
  refine ⟨parallelPrefixSumWith_eq degrees (by decide), by simp [prefixSum_eq], fun i hi => ?_⟩
  simp [prefixSum_eq, Nat.lt_succ_of_le hi]

example : parallelPrefixSum [3, 1, 4] = [0, 3, 4, 8] := by decide

example : parallelPrefixSumWith 2 [3, 1, 4, 1, 5] = [0, 3, 4, 8, 9, 14] := by decide

theorem parallelPrefixSum_getD (d : Nat → Nat) {m i : Nat} (hi : i ≤ m) :
    (parallelPrefixSum ((List.range m).map fun j => (d j : Int))).getD i 0 = prefixSums d i := by
  rw [parallelPrefixSum, parallelPrefixSumWith_eq _ (by decide), prefixSum_eq]
  simp [prefixSums, Nat.lt_succ_of_le hi, ← List.map_take, List.take_range, Nat.min_eq_left hi,
    Nat.cast_list_sum]
  rfl

end DMM
