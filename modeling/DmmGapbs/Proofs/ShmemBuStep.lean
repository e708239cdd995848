import DmmGapbs.Spec.ShmemBuStep

/-! What `SHMEM_BUStep` does on every rank. Each woken vertex moves `awake_count` one cell on,
and the reduction reads through it, so the step is defined only when no rank wakes a vertex;
every rank then returns the sum of cells nothing wrote. With two ranks or more and no more ranks
than vertices the tail rank reads `parent` past its slice, whatever the inputs. -/

namespace DMM

theorem mapM_some_mem {α β : Type} (f : α → Option β) : ∀ {l : List α} {rs : List β},
    l.mapM f = some rs → (∀ a ∈ l, ∃ r ∈ rs, f a = some r) ∧ ∀ r ∈ rs, ∃ a ∈ l, f a = some r
  | [], rs, h => by
    obtain rfl : [] = rs := Option.some.inj h
    simp
  | a :: l, rs, h => by
    simp only [List.mapM_cons, bind, Option.bind_eq_some, pure, Option.some.injEq] at h
    obtain ⟨r, hr, rs', hrs', rfl⟩ := h
    obtain ⟨ih1, ih2⟩ := mapM_some_mem f hrs'
    refine ⟨fun x hx => ?_, fun y hy => ?_⟩
    · rcases List.mem_cons.1 hx with rfl | hx
      · exact ⟨r, List.mem_cons_self _ _, hr⟩
      · obtain ⟨y, hy, hfy⟩ := ih1 x hx
        exact ⟨y, List.mem_cons_of_mem _ hy, hfy⟩
    · rcases List.mem_cons.1 hy with rfl | hy
      · exact ⟨a, List.mem_cons_self _ _, hr⟩
      · obtain ⟨x, hx, hfx⟩ := ih2 y hy
        exact ⟨x, List.mem_cons_of_mem _ hx, hfx⟩

theorem mapM_none {α β : Type} (f : α → Option β) : ∀ {l : List α} {a : α}, a ∈ l → f a = none →
    l.mapM f = none
  | x :: l, a, ha, hf => by
    simp only [List.mapM_cons, bind, pure]
    rcases List.mem_cons.1 ha with rfl | ha
    · rw [hf]; rfl
    · cases f x with
      | none => rfl
      | some r => rw [Option.some_bind, mapM_none f ha hf]; rfl

namespace BuCfg

variable (c : BuCfg) (front : Nat → Bool)

/-- Vertex `u` wakes: its entry is negative and an in-neighbour is in `front`. -/
def Wakes (parent : Nat → Int) (u : Nat) : Prop :=
  parent u < 0 ∧ ∃ v ∈ c.g.inNeigh u, front v = true

instance (parent : Nat → Int) (u : Nat) : Decidable (c.Wakes front parent u) :=
  inferInstanceAs (Decidable (_ ∧ _))

theorem buLoop_awake : ∀ (us : List Nat) (p : Nat → Int) (nx : Nat → Bool) (a : Nat)
    {r : (Nat → Int) × (Nat → Bool) × Nat}, us.Nodup → c.buLoop front us (p, nx, a) = some r →
      a ≤ r.2.2 ∧ ((∃ u ∈ us, c.Wakes front p u) → a < r.2.2) ∧ (r.2.2 = a → r.1 = p ∧ r.2.1 = nx)
  | [], p, nx, a, r, _, h => by
    obtain rfl := (Option.some.inj h).symm
    exact ⟨le_rfl, fun ⟨_, hu, _⟩ => absurd hu (List.not_mem_nil _), fun _ => ⟨rfl, rfl⟩⟩
  | u :: us, p, nx, a, r, hnd, h => by
    obtain ⟨hu, hnd'⟩ := List.nodup_cons.1 hnd
    simp only [buLoop] at h
    split_ifs at h with hw hneg
    · split at h
      · have ih := buLoop_awake us _ _ _ hnd' h
        exact ⟨by omega, fun _ => by omega, fun h' => by omega⟩
      · rename_i hv
        obtain ⟨ih1, ih2, ih3⟩ := buLoop_awake us _ _ _ hnd' h
        refine ⟨ih1, fun ⟨x, hx, hwx⟩ => ?_, ih3⟩
        rcases List.mem_cons.1 hx with rfl | hx
        · obtain ⟨v, hv', hfv⟩ := hwx.2
          exact absurd hfv (by simpa using List.find?_eq_none.1 hv v hv')
        · exact ih2 ⟨x, hx, hwx⟩
    · obtain ⟨ih1, ih2, ih3⟩ := buLoop_awake us _ _ _ hnd' h
      refine ⟨ih1, fun ⟨x, hx, hwx⟩ => ?_, ih3⟩
      rcases List.mem_cons.1 hx with rfl | hx
      · exact absurd hwx.1 hneg
      · exact ih2 ⟨x, hx, hwx⟩

theorem buLoop_none : ∀ (us : List Nat) (s : (Nat → Int) × (Nat → Bool) × Nat) {x : Nat},
    x ∈ us → c.vp.maxWidth ≤ x → c.buLoop front us s = none
  | u :: us, (p, nx, a), x, hx, hle => by
    simp only [buLoop]
    split_ifs with hw
    · rfl
    all_goals have hx' : x ∈ us := (List.mem_cons.1 hx).resolve_left fun h => hw (h ▸ hle)
    · split <;> exact buLoop_none us _ hx' hle
    · exact buLoop_none us _ hx' hle

theorem shmemBuStep_eq_some {parent : Nat → Nat → Int} {r : (Nat → Nat → Int) × (Nat → Bool) × Int}
    (h : c.shmemBuStep front parent = some r) :
    (∀ pe < (c.npes : Nat), ∀ u ∈ c.ids pe, ¬c.Wakes front (parent pe) u) ∧
      r.2.1 = (fun _ => false) ∧ r.2.2 = ((List.range c.npes).map c.fresh).sum := by
  simp only [shmemBuStep, Option.bind_eq_some] at h
  obtain ⟨rs, hrs, hr⟩ := h
  split_ifs at hr with hall
  obtain rfl := (Option.some.inj hr).symm
  obtain ⟨hin, hout⟩ := mapM_some_mem _ hrs
  have h0 : ∀ q ∈ rs, q.2.2 = 0 := fun q hq => by simpa using List.all_eq_true.1 hall q hq
  refine ⟨fun pe hpe u hu hw => ?_, funext fun u => ?_, rfl⟩
  · obtain ⟨q, hq, hloop⟩ := hin pe (List.mem_range.2 hpe)
    have := (c.buLoop_awake front _ _ _ _ (List.nodup_range' _ _) hloop).2.1 ⟨u, hu, hw⟩
    rw [h0 q hq] at this
    exact Nat.lt_irrefl _ this
  · refine List.any_eq_false.2 fun q hq => ?_
    obtain ⟨pe, -, hloop⟩ := hout q hq
    rw [((c.buLoop_awake front _ _ _ _ (List.nodup_range' _ _) hloop).2.2 (h0 q hq)).2]
    simp

theorem shmemBuStep_eq_none (h2 : 2 ≤ (c.npes : Nat)) (hn : (c.npes : Nat) ≤ c.g.numNodes)
    (parent : Nat → Nat → Int) : c.shmemBuStep front parent = none := by
  have hlt := c.vp.maxWidth_lt h2 hn
  have hN : c.vp.npes = c.npes := rfl
  have hn' : c.vp.n = c.g.numNodes := rfl
  have h1 := c.vp.npes_mul_le
  have h2' := c.vp.tail_mul_add
  have hw : 1 ≤ c.vp.partitionWidth := (Nat.le_div_iff_mul_le c.vp.npes_pos).2 (by omega)
  have hmem : c.g.numNodes - 1 ∈ c.ids (c.npes - 1) := by
    rw [ids, List.mem_range', ← hN, c.vp.stop_tail]
    refine ⟨c.g.numNodes - 1 - c.vp.start (c.vp.npes - 1), ?_, ?_⟩ <;>
      simp only [Partition.start, Nat.one_mul] <;> omega
  rw [shmemBuStep, mapM_none _ (List.mem_range.2 (Nat.sub_lt c.npes.pos Nat.one_pos))
    (c.buLoop_none front _ _ hmem (by omega))]
  rfl

end BuCfg

/-- The edge `0 - 1` on one rank, where fresh memory reads `0`. -/
def edgeBu : BuCfg := ⟨Graph.ofAdj [[1], [0]], 1, fun _ => 0⟩

/-- Vertex 1 wakes, the loop moves `awake_count` one cell past its allocation, and the reduction
reads there: the step is undefined. -/
theorem edgeBu_awake_past_cell :
    edgeBu.Wakes (fun v => v == 0) (fun u => if u = 0 then 0 else -1) 1 ∧
      (edgeBu.buLoop (fun v => v == 0) (edgeBu.ids 0)
        (fun u => if u = 0 then 0 else -1, fun _ => false, 0)).map (fun r => (r.1 1, r.2.1 1, r.2.2)) =
        some (0, true, 1) ∧
      edgeBu.shmemBuStep (fun v => v == 0) (fun _ u => if u = 0 then 0 else -1) = none :=
  ⟨by decide, by decide, rfl⟩

end DMM
