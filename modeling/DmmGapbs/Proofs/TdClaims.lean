import DmmGapbs.Spec.TdStep

/-! Who claims a vertex in one top-down step. -/

namespace DMM

/-- The diamond `1 → {0, 2} → 3` on two ranks, one level into a search from `1`. -/
def diamondTd : TdCfg :=
  ⟨Graph.ofAdj [[1, 3], [0, 2], [1, 3], [0, 2]], 2, [0, 2],
    fun pe i => (([[1, 1], [1, -2]] : List (List Int)).getD pe []).getD i 0, fun _ => 0⟩

/-- Ranks 0 and 1 both read `parent[3] = -2` before rank 1's compare-and-swap sets it. -/
def diamondSchedA : List Nat := [1, 1, 1, 1, 0, 0, 0, 1]

def diamondSchedB : List Nat := [0, 0, 0, 1]

theorem tdStep_double_claim :
    (tdRun diamondTd (tdInit diamondTd) diamondSchedA).parent 1 1 = 2 ∧
    (tdRun diamondTd (tdInit diamondTd) (diamondSchedA ++ diamondSchedB)).parent 1 1 = 0 ∧
    ∀ pe < 2, ((tdRun diamondTd (tdInit diamondTd) (diamondSchedA ++ diamondSchedB)).ranks pe).pushed
      = [3] := by
  decide

end DMM
