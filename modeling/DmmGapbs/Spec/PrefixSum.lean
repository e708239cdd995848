import Mathlib.Algebra.BigOperators.Group.List
import Mathlib.Algebra.Order.Ring.Nat
import Mathlib.Algebra.Ring.Int.Defs

/-! `PrefixSum` and `ParallelPrefixSum` of `builder.h`, sequentially and on one rank. Both fill
`degrees.size() + 1` entries; the arrays are lists, the blocks of `ParallelPrefixSum` being
written one after the other over `[0, degrees.size())`. Sums are `Int` (`SGOffset` is 64 bits
wide, every degree an `int`). -/

namespace DMM

/-- `out[i] = total; total += degrees[i]` over `ds`: the entries and the final `total`. -/
def scanLoop (total : Int) : List Int → List Int × Int
  | [] => ([], total)
  | d :: ds => let r := scanLoop (total + d) ds; (total :: r.1, r.2)

/-- `PrefixSum`: the loop from `total = 0`, then `sums[degrees.size()] = total`. -/
def prefixSum (degrees : List Int) : List Int :=
  let r := scanLoop 0 degrees
  r.1 ++ [r.2]

/-- `block_size = 1 << 20`. -/
def kBlockSize : Nat := 2 ^ 20

/-- The entries of block `block`: `[block * block_size, min((block + 1) * block_size, size))`. -/
def blockOf (blockSize : Nat) (degrees : List Int) (block : Nat) : List Int :=
  (degrees.drop (block * blockSize)).take
    (min ((block + 1) * blockSize) degrees.length - block * blockSize)

/-- `ParallelPrefixSum` with blocks of `blockSize`: block sums, `bulk_prefix`, each block's scan. -/
def parallelPrefixSumWith (blockSize : Nat) (degrees : List Int) : List Int :=
  let numBlocks := (degrees.length + blockSize - 1) / blockSize
  let localSums := (List.range numBlocks).map fun b =>
    (blockOf blockSize degrees b).foldl (· + ·) 0
  let bulkPrefix := scanLoop 0 localSums
  ((List.range numBlocks).flatMap fun b =>
    (scanLoop (bulkPrefix.1.getD b 0) (blockOf blockSize degrees b)).1) ++ [bulkPrefix.2]

/-- `ParallelPrefixSum`. -/
def parallelPrefixSum (degrees : List Int) : List Int := parallelPrefixSumWith kBlockSize degrees

end DMM
