import DmmGapbs.Spec.Tc
import Mathlib.Algebra.BigOperators.Group.Finset

/-! `OrderedCount` counts every triangle of a squished symmetric graph exactly once, for every
number of ranks, and its cursor never runs past the end of `out_neigh(u)`. -/

namespace DMM

open Graph

theorem sum_range_list (f : Nat → Nat) (b : Nat) :
    ((List.range b).map f).sum = ∑ i in Finset.range b, f i := by
  induction b with
  | zero => rfl
  | succ b ih => rw [List.range_succ, List.map_append, List.sum_append, ih, Finset.sum_range_succ]; simp

theorem sum_filter_lt_eq_range {l : List Nat} (hl : l.Nodup) (b : Nat) (F : Nat → Nat) :
    ((l.filter (· < b)).map F).sum = ((List.range b).map fun v => if v ∈ l then F v else 0).sum := by
  rw [sum_range_list, ← Finset.sum_filter, ← List.sum_toFinset _ (hl.filter _)]
  congr 1
  ext v; simp [and_comm]

theorem advance_eq {w : Nat} : ∀ {it : List Nat}, it.Sorted (· < ·) → (∃ y ∈ it, w ≤ y) →
    advance w it = some (it.filter (w ≤ ·))
  | [], _, ⟨_, hy, _⟩ => absurd hy (List.not_mem_nil _)
  | x :: xs, hs, ⟨y, hy, hwy⟩ => by
    rw [List.sorted_cons] at hs
    by_cases hx : x < w
    · have hy' : y ∈ xs := by
        rcases List.mem_cons.mp hy with rfl | h
        · omega
        · exact h
      simp only [advance, hx, if_true, List.filter_cons, show ¬ w ≤ x by omega, decide_False]
      exact advance_eq hs.2 ⟨y, hy', hwy⟩
    · have hall : (xs.filter (w ≤ ·)) = xs :=
        List.filter_eq_self.mpr fun b hb => by have := hs.1 b hb; simp; omega
      simp [advance, hx, show w ≤ x by omega, hall]

theorem mergeCount_eq {v : Nat} : ∀ {ws it : List Nat}, ws.Sorted (· < ·) → v ∉ ws →
    it.Sorted (· < ·) → v ∈ it →
    mergeCount v ws it = some (((ws.filter (· < v)).map fun w => if w ∈ it then 1 else 0).sum)
  | [], _, _, _, _, _ => rfl
  | w :: ws, it, hws, hv, hit, hvit => by
    rw [List.sorted_cons] at hws
    have hwv : w ≠ v := fun h => hv (h ▸ List.mem_cons_self _ _)
    by_cases hvw : v < w
    · have hnil : (w :: ws).filter (· < v) = [] := List.filter_eq_nil_iff.mpr fun b hb => by
        rcases List.mem_cons.mp hb with rfl | hb
        · simp; omega
        · have := hws.1 b hb; simp; omega
      simp [mergeCount, hvw, hnil]
    · have hadv := advance_eq (w := w) hit ⟨v, hvit, by omega⟩
      set it' := it.filter (w ≤ ·) with hit'
      have hvit' : v ∈ it' := List.mem_filter.mpr ⟨hvit, by simp; omega⟩
      obtain ⟨x, xs, hx⟩ := List.exists_cons_of_ne_nil (List.ne_nil_of_mem hvit')
      have hs' : it'.Sorted (· < ·) := hit.filter _
      -- the cursor's head is `w` exactly when `w` is a neighbour of `u`
      have hhead : w = x ↔ w ∈ it := by
        have hxmem : x ∈ it' := hx ▸ List.mem_cons_self _ _
        rw [hit', List.mem_filter] at hxmem
        constructor
        · rintro rfl; exact hxmem.1
        · intro hw
          have hw' : w ∈ x :: xs := hx ▸ List.mem_filter.mpr ⟨hw, by simp⟩
          rcases List.mem_cons.mp hw' with h | h
          · exact h
          · have := (List.sorted_cons.mp (hx ▸ hs')).1 w h; simp at hxmem; omega
      -- past `w`, membership in the cursor is membership in `out_neigh(u)`
      have hrest : (ws.filter (· < v)).map (fun w => if w ∈ x :: xs then 1 else 0) =
          (ws.filter (· < v)).map (fun w => if w ∈ it then 1 else 0) := by
        refine List.map_congr_left fun b hb => ?_
        have hwb := hws.1 b (List.mem_filter.mp hb).1
        have hmem : b ∈ x :: xs ↔ b ∈ it := by
          rw [← hx, hit', List.mem_filter]; simp only [decide_eq_true_eq, and_iff_left_iff_imp]
          intro _; omega
        simp only [hmem]
      have ih := mergeCount_eq hws.2 (fun h => hv (List.mem_cons_of_mem _ h))
        (hx ▸ hs') (hx ▸ hvit')
      simp only [mergeCount, hvw, if_false, hadv, hx, ih, Option.map_some', hrest,
        List.filter_cons, show w < v by omega, decide_True, List.map_cons, List.sum_cons,
        Option.some.injEq]
      by_cases hw : w ∈ it <;> simp [hw, hhead]

theorem countAt_eq {g : Graph} (hg : g.Squished) (u : Nat) : ∀ {vs : List Nat},
    vs.Sorted (· < ·) → u ∉ vs → (∀ v ∈ vs, v ∈ g.outNeigh u) →
    countAt g u vs = some (((vs.filter (· < u)).map fun v =>
      (((g.outNeigh v).filter (· < v)).map fun w => if w ∈ g.outNeigh u then 1 else 0).sum).sum)
  | [], _, _, _ => rfl
  | v :: vs, hs, hu, hmem => by
    rw [List.sorted_cons] at hs
    have huv : v ≠ u := fun h => hu (h ▸ List.mem_cons_self _ _)
    by_cases hlt : u < v
    · have hnil : (v :: vs).filter (· < u) = [] := List.filter_eq_nil_iff.mpr fun b hb => by
        rcases List.mem_cons.mp hb with rfl | hb
        · simp; omega
        · have := hs.1 b hb; simp; omega
      simp [countAt, hlt, hnil]
    · have hm := mergeCount_eq (hg.sorted v) (hg.loopFree v) (hg.sorted u)
        (hmem v (List.mem_cons_self _ _))
      have ih := countAt_eq hg u hs.2 (fun h => hu (List.mem_cons_of_mem _ h))
        (fun b hb => hmem b (List.mem_cons_of_mem _ hb))
      simp [countAt, hlt, hm, ih, show v < u by omega]

theorem sumOpt_eq {f : Nat → Option Nat} {F : Nat → Nat} :
    ∀ {l : List Nat}, (∀ x ∈ l, f x = some (F x)) → sumOpt f l = some (l.map F).sum
  | [], _ => rfl
  | x :: xs, h => by
    simp [sumOpt, h x (List.mem_cons_self _ _),
      sumOpt_eq fun y hy => h y (List.mem_cons_of_mem _ hy)]

theorem Partition.sum_ranges (p : Partition) (F : Nat → Nat) :
    ((List.range p.npes).map fun pe => ((List.range' (p.start pe) (p.width pe)).map F).sum).sum =
      ((List.range p.n).map F).sum := by
  rw [← p.flatMap_ranges, List.flatMap_def, List.map_flatten, List.sum_flatten, List.map_map,
    List.map_map]; rfl

theorem countAt_outNeigh {g : Graph} (hg : g.Squished) (u : Nat) :
    countAt g u (g.outNeigh u) = some (trianglesAt g u) := by
  rw [trianglesAt, countAt_eq hg u (hg.sorted u) (hg.loopFree u) (fun _ h => h),
    sum_filter_lt_eq_range (hg.sorted u).nodup]
  congr 2
  refine List.map_congr_left fun v _ => ?_
  rw [sum_filter_lt_eq_range (hg.sorted v).nodup]
  by_cases hv : v ∈ g.outNeigh u
  · simp [hv, ite_and]
  · simp [hv]

theorem orderedCount_of_countAt {g : Graph} {F : Nat → Nat}
    (hF : ∀ u, countAt g u (g.outNeigh u) = some (F u)) (npes : ℕ+) :
    orderedCount g npes = some ((List.range g.numNodes).map F).sum := by
  dsimp only [orderedCount]
  rw [sumOpt_eq (fun pe _ => sumOpt_eq (fun u _ => hF u))]
  exact congrArg some (Partition.sum_ranges ⟨g.numNodes, npes, npes.pos⟩ F)

/-- With squished neighbour lists `OrderedCount` returns the triangle count on every rank. -/
theorem orderedCount_eq_triangles (g : Graph) (hg : g.Squished) (npes : ℕ+) : orderedCount g npes = some (triangles g) :=
  orderedCount_of_countAt (countAt_outNeigh hg) npes

/-- `K_4`, the spec's four-triangle scenario. -/
def completeFour : Graph := Graph.ofAdj [[1, 2, 3], [0, 2, 3], [0, 1, 3], [0, 1, 2]]

theorem completeFour_squished : completeFour.Squished := by
  constructor <;> intro u <;> rcases u with _ | _ | _ | _ | u <;> simp [completeFour, Graph.ofAdj]

theorem orderedCount_completeFour : completeFour.Squished ∧
    orderedCount completeFour 3 = some (triangles completeFour) ∧ triangles completeFour = 4 :=
  ⟨completeFour_squished, orderedCount_eq_triangles completeFour completeFour_squished 3, by decide⟩

end DMM
