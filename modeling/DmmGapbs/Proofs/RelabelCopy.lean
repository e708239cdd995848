import DmmGapbs.Proofs.Relabel
import Mathlib.Algebra.BigOperators.Group.List

/-! Phase 4 of `RelabelByDegree` under every interleaving of the ranks' `fetch_inc`s and puts.
Every `fetch_inc` for vertex `u` goes to the slot `offsets[local_pos(new_ids[u])]` on the owner
of `new_ids[u]`, and all of them come from the owner of `u`, in the order of `out_neigh(u)`. The
slot starts at `u`'s list in the prefix sums of the new degrees, which holds `out_degree(u)`
cells, so the `k`-th `fetch_inc` returns the `k`-th cell of that list, and the lists of
different vertices are disjoint: whatever the interleaving, the copy writes `new_ids[v]` for the
`k`-th `v` of `out_neigh(u)` into the `k`-th cell of `u`'s new list, and nothing else. -/

namespace DMM

@[simp] theorem CopyWorld.update_ranks (w : CopyWorld) (pe : Nat) (f : CopyRank → CopyRank) (q : Nat) :
    (w.update pe f).ranks q = if q = pe then f (w.ranks pe) else w.ranks q := by
  simp only [CopyWorld.update, Function.update_apply]

namespace RelabelCfg

/-- The neighbours of `u` still to copy among the pairs `T`. -/
def pend (T : List (Nat × Nat)) (u : Nat) : List Nat := (T.filter fun e => e.1 = u).map Prod.snd

@[simp] theorem pend_nil (u : Nat) : pend [] u = [] := rfl

theorem pend_cons (x v u : Nat) (T : List (Nat × Nat)) :
    pend ((x, v) :: T) u = if x = u then v :: pend T u else pend T u := by
  by_cases h : x = u <;> simp [pend, List.filter_cons, h]

theorem pend_append (A B : List (Nat × Nat)) (u : Nat) : pend (A ++ B) u = pend A u ++ pend B u := by
  simp [pend, List.filter_append]

variable (c : RelabelCfg)

theorem pend_flatMap (x : Nat) : ∀ us : List Nat, us.Nodup →
    pend (us.flatMap fun u => (c.g.outNeigh u).map fun v => (u, v)) x =
      if x ∈ us then c.g.outNeigh x else []
  | [], _ => rfl
  | a :: us, hnd => by
    rw [List.nodup_cons] at hnd
    have ha : pend ((c.g.outNeigh a).map fun v => (a, v)) x = if a = x then c.g.outNeigh a else [] := by
      by_cases h : a = x <;> simp [pend, List.filter_map, Function.comp_def, h]
    rw [List.flatMap_cons, pend_append, ha, pend_flatMap x us hnd.2]
    by_cases h : a = x
    · subst h; simp [hnd.1]
    · simp [h, Ne.symm h]

theorem pend_copyInit {u : Nat} (hu : u < c.g.numNodes) :
    pend (c.copyInit.ranks (c.vp.recv u)).todo u = c.g.outNeigh u := by
  have hmem : u ∈ List.range' (c.vp.start (c.vp.recv u)) (c.vp.width (c.vp.recv u)) := by
    have h1 := c.vp.start_recv_add u
    have h2 := c.vp.localPos_lt_width hu
    exact List.mem_range'_1.2 ⟨by omega, by omega⟩
  simp only [copyInit]
  rw [pend_flatMap c u _ (List.nodup_range' _ _), if_pos hmem]

theorem mem_copyInit {pe x y : Nat} (hpe : pe < (c.npes : Nat))
    (h : (x, y) ∈ (c.copyInit.ranks pe).todo) :
    x < c.g.numNodes ∧ c.vp.recv x = pe ∧ y ∈ c.g.outNeigh x := by
  simp only [copyInit, List.mem_flatMap, List.mem_map, Prod.mk.injEq, List.mem_range'_1] at h
  obtain ⟨u, ⟨h1, h2⟩, v, hv, rfl, rfl⟩ := h
  have hs := c.vp.stop_le_n hpe
  have hn : c.vp.n = c.g.numNodes := rfl
  refine ⟨by simp only [Partition.width] at h2; omega, c.vp.recv_eq_of_mem hpe h1 ?_, hv⟩
  simp only [Partition.width] at h2; omega

/-! ### The copy loop's invariant -/

section Copy

variable (ids : Nat → Nat)

/-- `new_u_owner`: the rank that holds vertex `u`'s new list. -/
def owner (u : Nat) : Nat := c.vp.recv (ids u)

/-- `new_u_offset`: the slot of `u`'s new list on its owner. -/
def slot (u : Nat) : Nat := c.vp.localPos (ids u)

/-- `index[new_u_offset]` on `new_u_owner`: where `u`'s new list starts. -/
def base (u : Nat) : Nat := c.index (c.owner ids u) (c.slot ids u)

def doneOf (w : CopyWorld) (u : Nat) : Nat :=
  (c.g.outNeigh u).length - (pend (w.ranks (c.vp.recv u)).todo u).length

def flying (w : CopyWorld) (u : Nat) : Nat :=
  match (w.ranks (c.vp.recv u)).held, (w.ranks (c.vp.recv u)).todo with
  | some _, (x, _) :: _ => if x = u then 1 else 0
  | _, _ => 0

/-- The copy loop's invariant: every slot has moved past the cells copied, which hold the new ids
of the neighbours in order. -/
structure CopyInv (w : CopyWorld) : Prop where
  todo : ∀ pe < (c.npes : Nat), (w.ranks pe).todo <:+ (c.copyInit.ranks pe).todo
  held : ∀ pe < (c.npes : Nat), ∀ off, (w.ranks pe).held = some off →
    ∃ u v rest, (w.ranks pe).todo = (u, v) :: rest ∧ off = c.base ids u + c.doneOf w u
  ctr : ∀ u < c.g.numNodes,
    (w.ranks (c.owner ids u)).offsets (c.slot ids u) = c.base ids u + c.doneOf w u + c.flying w u
  cells : ∀ u < c.g.numNodes, ∀ k < c.doneOf w u,
    (w.ranks (c.owner ids u)).neighs (c.base ids u + k) = ids ((c.g.outNeigh u).getD k 0)

theorem index_succ (pe i : Nat) : c.index pe (i + 1) = c.index pe i + c.degreesOf pe i := by
  simp [index, prefixSums, List.range_succ, List.sum_append]

theorem index_mono (pe : Nat) {i j : Nat} (h : i ≤ j) : c.index pe i ≤ c.index pe j := by
  induction h with
  | refl => exact le_rfl
  | step _ ih => rw [index_succ]; omega

theorem doneOf_copyInit {u : Nat} (hu : u < c.g.numNodes) : c.doneOf c.copyInit u = 0 := by
  rw [doneOf, pend_copyInit c hu, Nat.sub_self]

theorem copyInv_init : c.CopyInv ids c.copyInit where
  todo _ _ := List.suffix_refl _
  held _ _ _ h := by cases h
  ctr u hu := by rw [doneOf_copyInit c hu]; rfl
  cells u hu k hk := by rw [doneOf_copyInit c hu] at hk; cases hk

variable {c ids}

section Addr

variable (hinj : ∀ u < c.g.numNodes, ∀ v < c.g.numNodes, ids u = ids v → u = v)
  (hdeg : ∀ u < c.g.numNodes, c.degreesOf (c.owner ids u) (c.slot ids u) = (c.g.outNeigh u).length)

include hinj in
theorem eq_of_slot {u v : Nat} (hu : u < c.g.numNodes) (hv : v < c.g.numNodes)
    (ho : c.owner ids u = c.owner ids v) (hs : c.slot ids u = c.slot ids v) : u = v :=
  hinj u hu v hv (c.vp.addr_injective ho hs)

include hdeg in
theorem index_slot_succ {u : Nat} (hu : u < c.g.numNodes) :
    c.index (c.owner ids u) (c.slot ids u + 1) = c.base ids u + (c.g.outNeigh u).length := by
  rw [index_succ, hdeg u hu]; rfl

include hinj hdeg in
theorem lists_disjoint {u v : Nat} (hu : u < c.g.numNodes) (hv : v < c.g.numNodes) (hne : u ≠ v)
    (ho : c.owner ids u = c.owner ids v) :
    c.base ids u + (c.g.outNeigh u).length ≤ c.base ids v ∨
      c.base ids v + (c.g.outNeigh v).length ≤ c.base ids u := by
  rcases Nat.lt_or_gt_of_ne fun hs => hne (eq_of_slot hinj hu hv ho hs) with h | h
  · left
    rw [← index_slot_succ hdeg hu, base, ho]
    exact index_mono c _ h
  · right
    rw [← index_slot_succ hdeg hv, base, ← ho]
    exact index_mono c _ h

end Addr

section Step

variable {w : CopyWorld} {pe u v : Nat} {rest : List (Nat × Nat)}
  (hinj : ∀ u < c.g.numNodes, ∀ v < c.g.numNodes, ids u = ids v → u = v)
  (hdeg : ∀ u < c.g.numNodes, c.degreesOf (c.owner ids u) (c.slot ids u) = (c.g.outNeigh u).length)

variable (ids) in
theorem copyStep_fetch (hpe : pe < (c.npes : Nat)) (ht : (w.ranks pe).todo = (u, v) :: rest)
    (hh : (w.ranks pe).held = none) (r : Nat) :
    ((c.copyStep ids w pe).ranks r).todo = (w.ranks r).todo ∧
    ((c.copyStep ids w pe).ranks r).held =
      (if r = pe then some ((w.ranks (c.owner ids u)).offsets (c.slot ids u)) else (w.ranks r).held) ∧
    ((c.copyStep ids w pe).ranks r).offsets = (if r = c.owner ids u then
      Function.update (w.ranks r).offsets (c.slot ids u) ((w.ranks r).offsets (c.slot ids u) + 1)
      else (w.ranks r).offsets) ∧
    ((c.copyStep ids w pe).ranks r).neighs = (w.ranks r).neighs := by
  simp only [copyStep, if_pos hpe, ht, hh, CopyWorld.update_ranks]
  by_cases h1 : r = pe <;> by_cases h2 : r = c.vp.recv (ids u) <;> by_cases h3 : pe = c.vp.recv (ids u) <;>
    simp_all [owner, slot, Partition.localPos]

variable (ids) in
theorem copyStep_put {off : Nat} (hpe : pe < (c.npes : Nat)) (ht : (w.ranks pe).todo = (u, v) :: rest)
    (hh : (w.ranks pe).held = some off) (r : Nat) :
    ((c.copyStep ids w pe).ranks r).todo = (if r = pe then rest else (w.ranks r).todo) ∧
    ((c.copyStep ids w pe).ranks r).held = (if r = pe then none else (w.ranks r).held) ∧
    ((c.copyStep ids w pe).ranks r).offsets = (w.ranks r).offsets ∧
    ((c.copyStep ids w pe).ranks r).neighs = (if r = c.owner ids u then
      Function.update (w.ranks r).neighs off (ids v) else (w.ranks r).neighs) := by
  simp only [copyStep, if_pos hpe, ht, hh, CopyWorld.update_ranks]
  by_cases h1 : r = pe <;> by_cases h2 : r = c.vp.recv (ids u) <;> by_cases h3 : pe = c.vp.recv (ids u) <;>
    simp_all [owner]

theorem CopyInv.pend_eq (h : c.CopyInv ids w) {x : Nat} (hx : x < c.g.numNodes) :
    pend (w.ranks (c.vp.recv x)).todo x = (c.g.outNeigh x).drop (c.doneOf w x) := by
  have := ((h.todo _ (c.vp.recv_lt x)).filter fun e => e.1 = x).map Prod.snd
  exact List.suffix_iff_eq_drop.1 (pend_copyInit c hx ▸ this)

theorem CopyInv.mem_todo (h : c.CopyInv ids w) (hpe : pe < (c.npes : Nat))
    (ht : (w.ranks pe).todo = (u, v) :: rest) : u < c.g.numNodes ∧ c.vp.recv u = pe :=
  (c.mem_copyInit hpe ((h.todo pe hpe).subset (ht ▸ List.mem_cons_self _ _))).imp_right And.left

theorem flying_of_none {x : Nat} (hh : (w.ranks (c.vp.recv x)).held = none) : c.flying w x = 0 := by
  simp [flying, hh]

include hinj in
theorem CopyInv.fetch (h : c.CopyInv ids w) (hpe : pe < (c.npes : Nat))
    (ht : (w.ranks pe).todo = (u, v) :: rest) (hh : (w.ranks pe).held = none) :
    c.CopyInv ids (c.copyStep ids w pe) := by
  have F := copyStep_fetch (c := c) ids hpe ht hh
  obtain ⟨hu, hrecv⟩ := h.mem_todo hpe ht
  have hdone : c.doneOf (c.copyStep ids w pe) = c.doneOf w := by
    funext x; simp only [doneOf, (F _).1]
  have hfly0 : c.flying w u = 0 := flying_of_none (by rw [hrecv, hh])
  have hfly : ∀ x, c.flying (c.copyStep ids w pe) x = if x = u then 1 else c.flying w x := by
    intro x
    by_cases hx : c.vp.recv x = pe
    · simp only [flying, (F _).1, (F _).2.1, hx, if_true, ht, hh]
      by_cases hxu : x = u
      · subst hxu; simp
      · simp [hxu, Ne.symm hxu]
    · have hxu : x ≠ u := fun e => hx (e ▸ hrecv)
      simp only [flying, (F _).1, (F _).2.1, if_neg hx, if_neg hxu]
  refine ⟨fun q hq => (F q).1 ▸ h.todo q hq, fun q hq off hoff => ?_, fun x hx => ?_,
    fun x hx k hk => ?_⟩
  · rw [(F q).2.1] at hoff
    split_ifs at hoff with hq'
    · subst hq'
      cases hoff
      exact ⟨u, v, rest, (F _).1 ▸ ht, by rw [hdone, h.ctr u hu, hfly0]; rfl⟩
    · obtain ⟨u', v', r', ht', he⟩ := h.held q hq off hoff
      exact ⟨u', v', r', (F q).1 ▸ ht', by rw [hdone]; exact he⟩
  · rw [(F _).2.2.1, hdone, hfly]
    by_cases hxu : x = u
    · subst hxu
      rw [if_pos rfl, Function.update_same, h.ctr x hx, hfly0, if_pos rfl]
    · rw [if_neg hxu, ← h.ctr x hx]
      split_ifs with hxo
      · exact Function.update_noteq (fun hs => hxu (eq_of_slot hinj hx hu hxo hs)) _ _
      · rfl
  · rw [(F _).2.2.2]
    rw [hdone] at hk
    exact h.cells x hx k hk

include hinj hdeg in
theorem CopyInv.put (h : c.CopyInv ids w) {off : Nat} (hpe : pe < (c.npes : Nat))
    (ht : (w.ranks pe).todo = (u, v) :: rest) (hh : (w.ranks pe).held = some off) :
    c.CopyInv ids (c.copyStep ids w pe) := by
  have P := copyStep_put (c := c) ids hpe ht hh
  obtain ⟨hu, hrecv⟩ := h.mem_todo hpe ht
  obtain ⟨u', v', r', ht', hoff⟩ := h.held pe hpe off hh
  rw [ht] at ht'
  cases ht'
  have hpend := h.pend_eq hu
  rw [hrecv, ht, pend_cons, if_pos rfl] at hpend
  set d := c.doneOf w u with hd
  have hlen : (pend rest u).length + 1 = (c.g.outNeigh u).length - d := by
    rw [← List.length_drop, ← hpend, List.length_cons]
  have hv : (c.g.outNeigh u).getD d 0 = v := by
    have := congrArg List.head? hpend
    rw [List.head?_cons, List.head?_drop] at this
    rw [List.getD_eq_getElem?_getD, ← this]; rfl
  have hdone : ∀ x, c.doneOf (c.copyStep ids w pe) x = if x = u then d + 1 else c.doneOf w x := by
    intro x
    by_cases hxu : x = u
    · subst hxu; simp only [doneOf, (P _).1, if_pos hrecv, ↓reduceIte]; omega
    · rw [if_neg hxu]; simp only [doneOf, (P _).1]
      split_ifs with hx
      · rw [hx, ht, pend_cons, if_neg (Ne.symm hxu)]
      · rfl
  have hfly : ∀ x, c.flying (c.copyStep ids w pe) x = if c.vp.recv x = pe then 0 else c.flying w x := by
    intro x
    split_ifs with hx
    · exact flying_of_none (by rw [(P _).2.1, if_pos hx])
    · simp only [flying, (P _).1, (P _).2.1, if_neg hx]
  have hflyu : c.flying w u = 1 := by simp [flying, hrecv, hh, ht]
  have hfly0 : ∀ x, x ≠ u → c.vp.recv x = pe → c.flying w x = 0 := fun x hxu hx => by
    simp [flying, hx, hh, ht, Ne.symm hxu]
  refine ⟨fun q hq => ?_, fun q hq off' hoff' => ?_, fun x hx => ?_, fun x hx k hk => ?_⟩
  · rw [(P q).1]
    split_ifs with hq'
    · subst hq'; exact (List.suffix_cons _ _).trans (ht ▸ h.todo _ hq)
    · exact h.todo q hq
  · rw [(P q).2.1] at hoff'
    split_ifs at hoff' with hq'
    obtain ⟨u'', v'', r'', ht'', he⟩ := h.held q hq off' hoff'
    have hu'' := h.mem_todo hq ht''
    refine ⟨u'', v'', r'', by rw [(P q).1, if_neg hq', ht''], ?_⟩
    rw [hdone, if_neg fun e => hq' (hu''.2.symm.trans ((congrArg c.vp.recv e).trans hrecv))]
    exact he
  · rw [(P _).2.2.1, h.ctr x hx, hdone, hfly]
    by_cases hxu : x = u
    · subst hxu; rw [if_pos rfl, if_pos hrecv, hflyu]; omega
    · rw [if_neg hxu]
      split_ifs with hx'
      · rw [hfly0 x hxu hx']
      · rfl
  · rw [(P _).2.2.2]
    rw [hdone] at hk
    by_cases hxu : x = u
    · subst hxu
      rw [if_pos rfl]
      rcases Nat.lt_or_eq_of_le (Nat.le_of_lt_succ (if_pos rfl ▸ hk)) with hk' | rfl
      · rw [Function.update_noteq (by omega), h.cells x hx k hk']
      · rw [← hoff, Function.update_same, hv]
    · rw [if_neg hxu] at hk
      split_ifs with hxo
      · have hdis := lists_disjoint hinj hdeg hx hu hxu hxo
        have : c.doneOf w x ≤ (c.g.outNeigh x).length := Nat.sub_le _ _
        rw [Function.update_noteq (by omega), h.cells x hx k hk]
      · exact h.cells x hx k hk

include hinj hdeg in
theorem CopyInv.step (h : c.CopyInv ids w) (pe : Nat) : c.CopyInv ids (c.copyStep ids w pe) := by
  by_cases hpe : pe < (c.npes : Nat)
  · rcases ht : (w.ranks pe).todo with _ | ⟨⟨u, v⟩, rest⟩
    · have : c.copyStep ids w pe = w := by simp [copyStep, hpe, ht]
      rw [this]; exact h
    · rcases hh : (w.ranks pe).held with _ | off
      · exact h.fetch hinj hpe ht hh
      · exact h.put hinj hdeg hpe ht hh
  · have : c.copyStep ids w pe = w := by simp [copyStep, hpe]
    rw [this]; exact h

include hinj hdeg in
theorem CopyInv.run (h : c.CopyInv ids w) : ∀ sched, c.CopyInv ids (c.copyRun ids w sched) := by
  intro sched
  induction sched generalizing w with
  | nil => exact h
  | cons pe sched ih => exact ih (h.step hinj hdeg pe)

end Step

/-! ### Every rank leaves the copy loop -/

/-- The steps rank `pe` has left in the copy loop. -/
def stepsLeft (w : CopyWorld) (pe : Nat) : Nat :=
  2 * (w.ranks pe).todo.length - if (w.ranks pe).held.isSome then 1 else 0

section Progress

variable {w : CopyWorld}
  (hinj : ∀ u < c.g.numNodes, ∀ v < c.g.numNodes, ids u = ids v → u = v)
  (hdeg : ∀ u < c.g.numNodes, c.degreesOf (c.owner ids u) (c.slot ids u) = (c.g.outNeigh u).length)

theorem stepsLeft_step (h : c.CopyInv ids w) {pe : Nat} (hpe : pe < (c.npes : Nat)) (q : Nat) :
    stepsLeft (c.copyStep ids w q) pe = if q = pe then stepsLeft w pe - 1 else stepsLeft w pe := by
  by_cases hq : q < (c.npes : Nat)
  · rcases ht : (w.ranks q).todo with _ | ⟨⟨u, v⟩, rest⟩
    · have hw : c.copyStep ids w q = w := by simp [copyStep, hq, ht]
      rw [hw]
      split_ifs with hqp
      · subst hqp
        have hh : (w.ranks q).held = none := by
          rcases hh : (w.ranks q).held with _ | off
          · rfl
          · obtain ⟨_, _, _, ht', -⟩ := h.held q hq off hh
            rw [ht] at ht'; cases ht'
        simp [stepsLeft, ht, hh]
      · rfl
    · rcases hh : (w.ranks q).held with _ | off
      · obtain ⟨h1, h2, -⟩ := copyStep_fetch (c := c) ids hq ht hh pe
        by_cases hqp : q = pe
        · subst hqp
          simp only [stepsLeft, h1, h2, ↓reduceIte, ht, hh, Option.isSome_some, Option.isSome_none,
            Bool.false_eq_true, List.length_cons]
          omega
        · simp only [stepsLeft, h1, h2, if_neg (Ne.symm hqp), if_neg hqp]
      · obtain ⟨h1, h2, -⟩ := copyStep_put (c := c) ids hq ht hh pe
        by_cases hqp : q = pe
        · subst hqp
          simp only [stepsLeft, h1, h2, ↓reduceIte, ht, hh, Option.isSome_some, Option.isSome_none,
            Bool.false_eq_true, List.length_cons]
          omega
        · simp only [stepsLeft, h1, h2, if_neg (Ne.symm hqp), if_neg hqp]
  · have hw : c.copyStep ids w q = w := by simp [copyStep, hq]
    rw [hw, if_neg fun (e : q = pe) => hq (e ▸ hpe)]

include hinj hdeg in
theorem stepsLeft_run (h : c.CopyInv ids w) {pe : Nat} (hpe : pe < (c.npes : Nat)) :
    ∀ sched, stepsLeft (c.copyRun ids w sched) pe = stepsLeft w pe - sched.count pe := by
  intro sched
  induction sched generalizing w with
  | nil => rfl
  | cons q sched ih =>
    rw [copyRun, List.foldl_cons, ← copyRun, ih (h.step hinj hdeg q), stepsLeft_step h hpe,
      List.count_cons]
    by_cases hq : q = pe
    · simp only [hq, ↓reduceIte, beq_self_eq_true]; omega
    · simp only [hq, ↓reduceIte, beq_iff_eq, Nat.add_zero]

include hinj hdeg in
theorem copyDone_of_fair {sched : List Nat}
    (hfair : ∀ pe < (c.npes : Nat), 2 * (c.copyInit.ranks pe).todo.length ≤ sched.count pe) :
    c.CopyDone (c.copyRun ids c.copyInit sched) := by
  intro pe hpe
  have hinv := (c.copyInv_init ids).run hinj hdeg sched
  have h0 : stepsLeft (c.copyRun ids c.copyInit sched) pe = 0 := by
    rw [stepsLeft_run hinj hdeg (c.copyInv_init ids) hpe]
    have := hfair pe hpe
    simp only [stepsLeft, copyInit, Option.isSome_none] at this ⊢
    omega
  rcases ht : ((c.copyRun ids c.copyInit sched).ranks pe).todo with _ | ⟨e, rest⟩
  · refine ⟨rfl, ?_⟩
    rcases hh : ((c.copyRun ids c.copyInit sched).ranks pe).held with _ | off
    · rfl
    · obtain ⟨_, _, _, ht', -⟩ := hinv.held pe hpe off hh
      rw [ht] at ht'; cases ht'
  · simp only [stepsLeft, ht, List.length_cons] at h0
    split_ifs at h0 <;> omega

end Progress

/-! ### The relabelled graph -/

section Result

variable {w : CopyWorld}
  (hid : ∀ u < c.g.numNodes, ids u < c.g.numNodes)
  (hinj : ∀ u < c.g.numNodes, ∀ v < c.g.numNodes, ids u = ids v → u = v)
  (hdeg : ∀ u < c.g.numNodes, c.degreesOf (c.owner ids u) (c.slot ids u) = (c.g.outNeigh u).length)

include hdeg in
theorem segment_eq (h : c.CopyInv ids w) (hd : c.CopyDone w) {u : Nat} (hu : u < c.g.numNodes) :
    c.segment w (c.owner ids u) (c.slot ids u) = (c.g.outNeigh u).map ids := by
  have hdone : c.doneOf w u = (c.g.outNeigh u).length := by
    simp [doneOf, (hd _ (c.vp.recv_lt u)).1]
  have hlen : c.index (c.owner ids u) (c.slot ids u + 1) - c.index (c.owner ids u) (c.slot ids u) =
      (c.g.outNeigh u).length := by
    rw [index_slot_succ hdeg hu, base]; omega
  rw [segment, hlen]
  refine List.ext_getElem (by simp) fun k h1 _ => ?_
  rw [List.length_map, List.length_range'] at h1
  rw [List.getElem_map, List.getElem_range', List.getElem_map, Nat.one_mul,
    ← List.getD_eq_getElem _ 0 h1]
  exact h.cells u hu k (hdone ▸ h1)

include hid hinj hdeg in
theorem relabeled_outNeigh {sched : List Nat}
    (hfair : ∀ pe < (c.npes : Nat), 2 * (c.copyInit.ranks pe).todo.length ≤ sched.count pe)
    {u : Nat} (hu : u < c.g.numNodes) :
    (c.relabeled (c.copyRun ids c.copyInit sched)).outNeigh (ids u) =
      ((c.g.outNeigh u).map ids).mergeSort := by
  have hinv := (c.copyInv_init ids).run hinj hdeg sched
  rw [← segment_eq hdeg hinv (copyDone_of_fair hinj hdeg hfair) hu]
  simp only [relabeled, if_pos (hid u hu)]
  rfl

end Result

end Copy

theorem degreesOf_newIds {order : List Nat} (horder : order.Perm (List.range c.g.numNodes)) {u : Nat}
    (hu : u < c.g.numNodes) :
    c.degreesOf (c.owner (c.newIds order) u) (c.slot (c.newIds order) u) = (c.g.outNeigh u).length := by
  obtain ⟨hlt, he⟩ := merged_newIds horder hu
  have hw : c.vp.localPos (c.newIds order u) < c.vp.width (c.vp.recv (c.newIds order u)) :=
    c.vp.localPos_lt_width hlt
  simp only [degreesOf, owner, slot, if_pos hw, tempPair_recv, he, degPair]

end RelabelCfg

end DMM
