import GameNet.Proofs.Simplify.Optimize

/-!
How many changes the optimizer can make.

Without factoring, double negation and flattening, every change takes a component or an edge away, no
component is new, and none gets more inputs.
-/

namespace GameNet

open List

namespace Network

/-! ## Counting components and edges -/

def weight (net : Network) : Nat := net.size + net.summary.edges

theorem size_eq (net : Network) : net.size = net.total fun _ => 1 := by
  rw [size, total, ← Array.countP_toList]
  induction net.slots.toList with
  | nil => rfl
  | cons slot slots ih =>
    rw [countP_cons, foldr_cons, ih]
    cases slot with
    | none => simp
    | some k => simp only [Option.isSome_some, if_true, Option.elim_some]; omega

theorem summary_edges (net : Network) : net.summary.edges = net.total fun k => k.outputs.length := by
  have addOp_edges : ∀ (s : Summary) (op : Op), (s.addOp op).edges = s.edges := by
    intro s op
    cases op <;> rfl
  suffices h : ∀ (slots : List (Option Component)) (n : Nat) (s : Summary),
      (((slots.zipIdx n).filterMap fun x => x.1.map (x.2, ·)).foldl (fun s x =>
        { s.addOp x.2.op with edges := (s.addOp x.2.op).edges + x.2.outputs.length }) s).edges =
      s.edges + slots.foldr (fun slot n => slot.elim 0 (fun k => k.outputs.length) + n) 0 by
    exact (h net.slots.toList 0 {}).trans (Nat.zero_add _)
  intro slots
  induction slots with
  | nil => exact fun _ _ => rfl
  | cons slot slots ih =>
    intro n s
    rw [zipIdx_cons, foldr_cons]
    cases slot with
    | none =>
      rw [filterMap_cons_none rfl, ih]
      simp only [Option.elim_none, Nat.zero_add]
    | some k =>
      have hcons : ((some k, n) :: slots.zipIdx (n + 1)).filterMap (fun x => x.1.map (x.2, ·)) =
          (n, k) :: (slots.zipIdx (n + 1)).filterMap fun x => x.1.map (x.2, ·) := rfl
      rw [hcons, foldl_cons, ih]
      simp only [addOp_edges, Option.elim_some]
      omega

section Sums

variable {net net' : Network} {w : Component → Nat}

theorem tally_zero (l : List CompId) : tally (fun _ => 0) l = 0 := by
  induction l with
  | nil => rfl
  | cons a l ih => rw [tally_cons, ih]

theorem tally_add (N N' : CompId → Nat) (l : List CompId) :
    tally (fun a => N a + N' a) l = tally N l + tally N' l := by
  induction l with
  | nil => rfl
  | cons a l ih => rw [tally_cons, tally_cons, tally_cons, ih]; omega

theorem tally_comm (f : CompId → CompId → Nat) (l l' : List CompId) :
    tally (fun a => tally (f a) l') l = tally (fun b => tally (f · b) l) l' := by
  induction l with
  | nil => simp only [tally_nil, tally_zero]
  | cons a l ih => simp only [tally_cons, tally_add, ih]

theorem tally_ite_eq {l : List CompId} (hl : l.Nodup) {a : CompId} (ha : a ∈ l) :
    tally (fun b => if a = b then 1 else 0) l = 1 := by
  induction l with
  | nil => cases ha
  | cons b l ih =>
    obtain ⟨hb, hl⟩ := nodup_cons.mp hl
    rw [tally_cons]
    by_cases hab : a = b
    · subst hab
      have hrest : tally (fun b => if a = b then 1 else 0) l = tally (fun _ => 0) l :=
        tally_congr fun d hd => if_neg (ne_of_mem_of_not_mem hd hb).symm
      rw [if_pos rfl, hrest, tally_zero]
    · rw [if_neg hab, ih hl ((mem_cons.mp ha).resolve_left hab)]

theorem tally_count {l : List CompId} {all : List CompId} (hall : all.Nodup) (h : ∀ a ∈ l, a ∈ all) :
    tally l.count all = l.length := by
  induction l with
  | nil => exact tally_zero all
  | cons a l ih =>
    have hcount : tally (a :: l).count all = tally (fun b => l.count b + if a = b then 1 else 0) all :=
      tally_congr fun b _ => by rw [count_cons]; simp only [beq_iff_eq]
    rw [hcount, tally_add, ih (forall_mem_cons.mp h).2,
      tally_ite_eq hall (h a mem_cons_self), length_cons]

theorem total_eq_tally (net : Network) (w : Component → Nat) :
    net.total w = tally (fun c => (net.get? c).elim 0 w) (List.range net.capacity) := by
  have hget : ∀ c, (net.get? c).elim 0 w = (net.slots.toList[c]?).join.elim 0 w := by
    intro c
    rw [get?, Array.getElem?_toList]
  simp only [hget]
  rw [total, capacity, ← Array.length_toList]
  induction net.slots.toList with
  | nil => rfl
  | cons slot slots ih =>
    rw [foldr_cons, length_cons, range_succ_eq_map, tally_cons, tally_map, ih]
    cases slot <;> rfl

theorem total_le_of_get? (hcap : net'.capacity = net.capacity)
    (h : ∀ c k', net'.get? c = some k' → ∃ k, net.get? c = some k ∧ w k' ≤ w k) :
    net'.total w ≤ net.total w := by
  rw [total_eq_tally, total_eq_tally, hcap]
  refine tally_mono fun c _ => ?_
  cases hk' : net'.get? c with
  | none => exact Nat.zero_le _
  | some k' =>
    obtain ⟨k, hk, hle⟩ := h c k' hk'
    rw [hk]
    exact hle

/-- Every edge is counted once where it leaves a component and once where it arrives. -/
theorem Balanced.total_outputs (hb : net.Balanced) :
    (net.total fun k => k.outputs.length) = net.total fun k => k.inputs.length := by
  have hin : ∀ c, (net.get? c).elim 0 (fun k => k.inputs.length) = (net.inputsOf c).length := by
    intro c
    rw [inputsOf]
    cases net.get? c <;> rfl
  have hout : ∀ c, (net.get? c).elim 0 (fun k => k.outputs.length) = (net.outputsOf c).length := by
    intro c
    rw [outputsOf]
    cases net.get? c <;> rfl
  have hlive : ∀ {c}, net.contains c → c ∈ List.range net.capacity := fun h =>
    mem_range.mpr (lt_capacity_of_contains h)
  rw [total_eq_tally, total_eq_tally]
  simp only [hin, hout]
  calc tally (fun a => (net.outputsOf a).length) (List.range net.capacity)
      = tally (fun a => tally (net.edgesOut a) (List.range net.capacity)) (List.range net.capacity) :=
        tally_congr fun a _ => (tally_count nodup_range fun b hab => hlive (hb.contains_target hab)).symm
    _ = tally (fun a => tally (fun b => net.edgesIn a b) (List.range net.capacity))
          (List.range net.capacity) := tally_congr fun a _ => tally_congr fun b _ => hb a b
    _ = tally (fun b => tally (net.edgesIn · b) (List.range net.capacity)) (List.range net.capacity) :=
        tally_comm _ _ _
    _ = tally (fun b => (net.inputsOf b).length) (List.range net.capacity) :=
        tally_congr fun b _ => tally_count nodup_range fun a hab => hlive (hb.contains_source hab)

theorem Balanced.weight_eq (hb : net.Balanced) : net.weight = net.total fun k => 1 + k.inputs.length := by
  rw [weight, size_eq, summary_edges, hb.total_outputs, total_add]

end Sums

/-! ## Changes that only take away -/

/-- A number of changes, each of which takes a component or an edge away. No component is new, and none
has more inputs than before. -/
structure Shrinks (n : Nat) (net net' : Network) : Prop extends Sound (· ∈ []) net net' where
  old : ∀ c, net'.contains c = true → net.contains c = true
  inputs : ∀ c, (net'.inputsOf c).length ≤ (net.inputsOf c).length
  lighter : n + net'.weight ≤ net.weight

section Shrinks

variable {n m : Nat} {net net' net'' : Network} {c : CompId} {touched : CompId → Prop}
  {edges : CompId → CompId → Nat}

theorem Shrinks.refl (hb : net.Balanced) (ha : net.Acyclic) : Shrinks 0 net net :=
  { Sound.refl hb ha with
    old := fun _ h => h
    inputs := fun _ => Nat.le_refl _
    lighter := Nat.le_of_eq (Nat.zero_add _) }

theorem Shrinks.trans (h : Shrinks n net net') (h' : Shrinks m net' net'') : Shrinks (n + m) net net'' :=
  { h.toSound.trans h'.toSound with
    old := fun c hc => h.old c (h'.old c hc)
    inputs := fun c => (h'.inputs c).trans (h.inputs c)
    lighter := by
      have h1 := h.lighter
      have h2 := h'.lighter
      omega }

theorem Edit.shrinks (e : Edit (· = c) touched edges net net') (hb : net.Balanced)
    (hs : Sound (· ∈ []) net net') (hc : net.contains c)
    (hi : ∀ b, b ≠ c → (net'.inputsOf b).length ≤ (net.inputsOf b).length) : Shrinks 1 net net' := by
  have hold : ∀ d, net'.contains d → net.contains d := fun d hd =>
    (e.contains (e.not_gone hd)).symm.trans hd
  refine { hs with old := hold, inputs := fun b => ?_, lighter := ?_ }
  · by_cases hbc : b = c
    · rw [inputsOf, get?_eq_none_iff.mpr (e.missing b hbc)]
      exact Nat.zero_le _
    · exact hi b hbc
  obtain ⟨k, hk⟩ := contains_iff.mp hc
  have hle : (net'.total fun k => 1 + k.inputs.length) ≤
      (net.remove c).total fun k => 1 + k.inputs.length := by
    refine total_le_of_get? (e.capacity.trans Array.size_modify.symm) fun d k' hk' => ?_
    have hdc := e.not_gone (contains_of_get? hk')
    obtain ⟨k0, hk0⟩ := contains_iff.mp (hold d (contains_of_get? hk'))
    refine ⟨k0, by rw [get?_remove, if_neg hdc, hk0], ?_⟩
    have := hi d hdc
    rw [inputsOf_of_get? hk', inputsOf_of_get? hk0] at this
    omega
  have hrem := total_remove (w := fun k => 1 + k.inputs.length) hk
  rw [hb.weight_eq, hs.balanced.weight_eq]
  omega

theorem Replaces.length_inputsOf_le {x : CompId} (h : Replaces net c x edges) (hx : x ≠ c)
    (e : Edit (· = c) touched edges net net') {b : CompId} (hbc : b ≠ c) :
    (net'.inputsOf b).length ≤ (net.inputsOf b).length := by
  have hsub : (net'.inputsOf b).Subperm ((net.inputsOf b).map fun a => if a = c then x else a) := by
    refine subperm_ext_iff.mpr fun a _ => ?_
    rw [count_map_replace]
    change net'.edgesIn a b ≤
      (if a = c then 0 else net.edgesIn a b) + if a = x then net.edgesIn c b else 0
    rw [e.wired.ins]
    have h1 := h.off a b
    have h2 := h.other a b
    have h3 := h.bound b hbc
    grind
  exact hsub.length_le.trans_eq (length_map _)

end Shrinks

/-! ## The passes that only take away -/

section Passes

variable {net net' : Network} {c : CompId}

theorem solid_nil (net : Network) : Solid [] net := fun _ h => by cases h

theorem dropped_shrinks (e : Edit (· = c) (fun _ => False) (net.dropped c) net net')
    (hb : net.Balanced) (ha : net.Acyclic) (hc : net.contains c) : Shrinks 1 net net' := by
  have hp : Progress [] 1 net net' := dropped_progress e hb ha (solid_nil net) hc not_mem_nil
  refine e.shrinks hb hp.toSound hc fun b hbc => Nat.le_of_eq (List.Perm.length_eq ?_)
  refine perm_iff_count.mpr fun a => ?_
  change net'.edgesIn a b = net.edgesIn a b
  rw [e.wired.ins, dropped, if_neg hbc]

theorem removeDeadEnds_shrinks (keep : List CompId) (hb : net.Balanced) (ha : net.Acyclic) :
    (net.removeDeadEnds keep).Yields fun r => Shrinks r.2 net r.1 := by
  refine Checked.total.run (fun s => Shrinks s.removed net s.net) DeadEnds.workLeft _ (fun s h => ?_)
    (.refl hb ha) (DeadEnds.workLeft_start net)
  refine (DeadEnds.turn_yields keep s).mono fun t ht => ?_
  obtain ⟨net1, suspects, removed⟩ := s
  dsimp only at h
  cases ht with
  | ended => exact h
  | @clear c rest hcons =>
    cases hcons
    exact ⟨h, DeadEnds.workLeft_clear net1 c rest removed⟩
  | @drop c rest k hcons hk ho =>
    cases hcons
    have hr := DeadEnds.release_fold h.balanced hk ho rest
    have hstep := dropped_shrinks (hr.edit h.balanced hk ho) h.balanced h.acyclic (contains_of_get? hk)
    exact ⟨h.trans hstep, hr.workLeft_lt hk removed⟩

theorem shareGates_shrinks (hb : net.Balanced) (ha : net.Acyclic) :
    net.shareGates.Yields fun r => Shrinks r.2 net r.1 := by
  refine shareGates_keeps (fun n net' => Shrinks n net net') (fun _ _ h => h.balanced)
    (fun _ net1 c twin h htwins => ?_) (fun _ net1 net2 c twin h htwins e => ?_) (.refl hb ha)
  · exact ⟨h.acyclic.irrefl c, (htwins.unrelated h.acyclic).1⟩
  have hs := (htwins.progress e h.balanced h.acyclic (solid_nil net1)).toSound
  obtain ⟨op, -, hop, -⟩ := htwins.gate
  exact h.trans (e.shrinks h.balanced hs (contains_of_op? hop) fun b hbc =>
    (replaces_merged net1 htwins.ne).length_inputsOf_le htwins.ne e hbc)

theorem removePassThrough_shrinks {ops : List Op} (hnot : Op.not ∉ ops) (keep : List CompId)
    (hb : net.Balanced) (ha : net.Acyclic) :
    (net.removePassThrough ops keep).Yields fun r => Shrinks r.2 net r.1 := by
  refine removePassThrough_keeps (fun n net' => Shrinks n net net') (fun _ _ h => h.balanced)
    (fun _ net1 net2 c x h hpass e => ?_) (.refl hb ha)
  have hs : Sound (· ∈ []) net1 net2 := hpass.sound hnot e h.balanced h.acyclic not_mem_nil
  exact h.trans (e.shrinks h.balanced hs hpass.contains fun b hbc =>
    (replaces_bypassed net1 hpass.ne).length_inputsOf_le hpass.ne e hbc)

theorem Thins.length_inputsOf_le {edges : CompId → CompId → Nat} {touched : CompId → Prop}
    (h : Thins net edges) (e : Edit (fun _ => False) touched edges net net') (b : CompId) :
    (net'.inputsOf b).length ≤ (net.inputsOf b).length := by
  refine List.Subperm.length_le (subperm_ext_iff.mpr fun a _ => ?_)
  exact (e.wired.ins a b).trans_le (h a b).1

theorem Edit.size_eq {edges : CompId → CompId → Nat} {touched : CompId → Prop}
    (e : Edit (fun _ => False) touched edges net net') : net'.size = net.size := by
  have hle : ∀ {net net' : Network}, net'.capacity = net.capacity →
      (∀ c, net'.contains c = net.contains c) → net'.size ≤ net.size := by
    intro net net' hcap hcon
    rw [Network.size_eq, Network.size_eq]
    refine total_le_of_get? hcap fun c k' hk' => ?_
    obtain ⟨k, hk⟩ := contains_iff.mp ((hcon c).symm.trans (contains_of_get? hk'))
    exact ⟨k, hk, Nat.le_refl _⟩
  have hcon : ∀ c, net'.contains c = net.contains c := fun c => e.contains fun h => h
  exact Nat.le_antisymm (hle e.capacity hcon) (hle e.capacity.symm fun c => (hcon c).symm)

section

variable (hb : net.Balanced) (ha : net.Acyclic)
include hb ha

theorem thinned_shrinks {n : Nat} (hc : net.contains c)
    (e : Edit (fun _ => False) (fun o => c ∈ net.inputsOf o) (net.thinned c) net net')
    (hn : n + (net'.outputsOf c).length = (net.outputsOf c).length) : Shrinks n net net' := by
  have hs : Sound (· ∈ []) net net' := thinned_sound hb ha e
  have hcon : ∀ d, net'.contains d = net.contains d := fun d => e.contains fun h => h
  refine { hs with old := fun d hd => (hcon d).symm.trans hd,
                   inputs := (thins_thinned net c).length_inputsOf_le e, lighter := ?_ }
  -- all edges but those out of `c` are as they were
  have hother : ∀ a, a ≠ c → (net'.outputsOf a).length = (net.outputsOf a).length := fun a hac =>
    List.Perm.length_eq (perm_iff_count.mpr fun b => by
      change net'.edgesOut a b = net.edgesOut a b
      rw [e.wired.outs, hb a b, thinned, if_neg hac])
  obtain ⟨k, hk⟩ := contains_iff.mp hc
  obtain ⟨k', hk'⟩ := contains_iff.mp ((hcon c).trans hc)
  have hle : ((net'.remove c).total fun k => k.outputs.length) ≤
      (net.remove c).total fun k => k.outputs.length := by
    refine total_le_of_get? ?_ fun d kd' hd' => ?_
    · rw [remove, remove, capacity, capacity, Array.size_modify, Array.size_modify]
      exact e.capacity
    rw [get?_remove] at hd'
    split at hd'
    · cases hd'
    next hdc =>
    obtain ⟨kd, hkd⟩ := contains_iff.mp ((hcon d).symm.trans (contains_of_get? hd'))
    refine ⟨kd, by rw [get?_remove, if_neg hdc, hkd], Nat.le_of_eq ?_⟩
    rw [← outputsOf_of_get? hd', ← outputsOf_of_get? hkd, hother d hdc]
  have hrem := total_remove (w := fun k => k.outputs.length) hk
  have hrem' := total_remove (w := fun k => k.outputs.length) hk'
  rw [outputsOf_of_get? hk, outputsOf_of_get? hk'] at hn
  rw [weight, weight, summary_edges, summary_edges, e.size_eq]
  omega

theorem recounted_shrinks (hop : net.op? c = some .and)
    (e : Edit (fun _ => False) (· = c) net.edgesIn net net')
    (hrest : net.inputsOf c = [] → net'.AtRest c) : Shrinks 0 net net' := by
  have hs : Sound (· ∈ []) net net' := recounted_sound hb ha hop e hrest
  have hi := (thins_self net).length_inputsOf_le e
  have hold : ∀ d, net'.contains d → net.contains d := fun d hd =>
    (e.contains fun h => h).symm.trans hd
  refine { hs with old := hold, inputs := hi, lighter := ?_ }
  rw [Nat.zero_add, hb.weight_eq, hs.balanced.weight_eq]
  refine total_le_of_get? e.capacity fun d k' hk' => ?_
  obtain ⟨k, hk⟩ := contains_iff.mp (hold d (contains_of_get? hk'))
  have := hi d
  rw [inputsOf_of_get? hk, inputsOf_of_get? hk'] at this
  exact ⟨k, hk, by omega⟩

theorem dropRepeatedEdges_shrinks : net.dropRepeatedEdges.Yields fun r => Shrinks r.2 net r.1 :=
  dropRepeatedEdges_keeps (fun n net' => Shrinks n net net') (fun _ _ h => h.balanced)
    (fun _ _ _ _ _ h hc e hm => h.trans (thinned_shrinks h.balanced h.acyclic hc e hm))
    (fun _ _ _ _ h hop e hrest => h.trans (recounted_shrinks h.balanced h.acyclic hop e hrest))
    (.refl hb ha)

theorem fitAllThresholds_shrinks : Shrinks 0 net net.fitAllThresholds := by
  have hs : Sound (· ∈ []) net net.fitAllThresholds := fitAllThresholds_sound hb ha
  obtain ⟨hr, hw⟩ := net.fitAllThresholds_rewires
  have e := hr.edit (hw.congr (fun _ _ => rfl) hb)
  have hi := (thins_self net).length_inputsOf_le e
  refine { hs with old := fun c hc => (hr.contains c).symm.trans hc, inputs := hi, lighter := ?_ }
  rw [Nat.zero_add, hb.weight_eq, hs.balanced.weight_eq]
  refine total_le_of_get? e.capacity fun c k' hk' => ?_
  rw [get?_fitAllThresholds] at hk'
  obtain ⟨k, hk, rfl⟩ := Option.map_eq_some_iff.mp hk'
  exact ⟨k, hk, by rw [k.fitThresholds_keeps.1]⟩

end

theorem weight_le_extent (net : Network) : net.weight ≤ net.extent := by
  have hone := net.total_one_le
  have hout : (net.total fun k => k.outputs.length) ≤
      net.total fun k => k.inputs.length + k.outputs.length := total_mono fun _ => Nat.le_add_left _ _
  rw [weight, size_eq, summary_edges, extent_eq]
  omega

theorem weight_lt_allowance (net : Network) :
    net.weight < Loop.allowance (Nat.pow 2 net.extent + Loop.patience) := by
  have hpow := Loop.lt_allowance net.extent
  rw [Loop.allowance_eq] at hpow
  have hlt := Loop.lt_allowance (Nat.pow 2 net.extent + Loop.patience)
  have := net.weight_le_extent
  omega

end Passes

end Network

/-! ## The optimizer without the passes that rebuild -/

namespace Optimize

open Network

section Rounds

variable {mode : Mode} {net : Network}

theorem round_shrinks (hm : mode.allPasses = false) (hb : net.Balanced) (ha : net.Acyclic) :
    (round mode net).Yields fun r => Shrinks r.2 net r.1 := by
  have hpasses : ∀ p ∈ passes mode (net.protectedIds true), ∀ net1 : Network, net1.Balanced →
      net1.Acyclic → (p.run net1).Yields fun r => Shrinks r.2 net1 r.1 := by
    intro p hp net1 hb ha
    simp only [passes, hm, Bool.false_eq_true, if_false, append_nil, cons_append,
      nil_append, mem_cons, not_mem_nil, or_false] at hp
    rcases hp with rfl | rfl | rfl | rfl
    · exact removeDeadEnds_shrinks _ hb ha
    · exact shareGates_shrinks hb ha
    · exact removePassThrough_shrinks (by decide) _ hb ha
    · exact dropRepeatedEdges_shrinks hb ha
  refine (Observed.total.foldlM (fun rest s => (∀ p ∈ rest, p ∈ passes mode (net.protectedIds true)) ∧
    Shrinks s.2 net s.1) (fun p rest s hinv => ?_) _ (net, 0) ⟨fun _ h => h, .refl hb ha⟩).mono
    fun r hr => hr.2
  obtain ⟨hps, hs⟩ := hinv
  refine (runPass_yields (hpasses p (hps p mem_cons_self) s.1 hs.balanced hs.acyclic)).mono fun r hr => ?_
  obtain ⟨m, hm, hn⟩ := hr
  refine ⟨(forall_mem_cons.mp hps).2, ?_⟩
  rw [hn]
  exact hs.trans hm

theorem turn_shrinks (hm : mode.allPasses = false) {s : Network × Nat} (h : Shrinks s.2 net s.1) :
    (turn mode s).Yields (Guarantee.Reaches
      (fun s' => Shrinks s'.2 net s'.1 ∧ s'.1.weight < s.1.weight) fun r => Shrinks r.2 net r.1) := by
  refine .bind (round_shrinks hm h.balanced h.acyclic) fun r hr => .pure ?_
  have hs := h.trans hr
  split
  · exact hs
  next hn =>
  simp only [Bool.or_eq_true, beq_iff_eq, not_or] at hn
  have := hr.lighter
  exact ⟨hs, show r.1.weight < s.1.weight by omega⟩

end Rounds

end Optimize

namespace Network

/-- Without the passes that rebuild, the optimizer ends and only takes away, whatever the parts in the
game are. -/
theorem optimize_shrinks {mode : Optimize.Mode} (hm : mode.allPasses = false) {net : Network}
    (hb : net.Balanced) (ha : net.Acyclic) : (net.optimize mode).Yields fun r => Shrinks r.2 net r.1 := by
  have hloop : (Loop.run (Nat.pow 2 net.extent) (Optimize.turn mode) (net, 0)).Yields fun r =>
      Shrinks r.2 net r.1 :=
    Observed.total.run (fun s : Network × Nat => Shrinks s.2 net s.1) (fun s => s.1.weight)
      (fun r : Network × Nat => Shrinks r.2 net r.1) (fun _ hs => Optimize.turn_shrinks hm hs)
      (.refl hb ha) net.weight_lt_allowance
  refine Observed.Yields.bind hloop fun r hr => .pure ?_
  exact hr.trans (fitAllThresholds_shrinks hr.balanced hr.acyclic)

/-- The optimizer ends in every mode. Where it may only take away, it makes no more changes than there
were components and edges, and those that it leaves are counted in. -/
theorem optimize_ends (net : Network) (hb : net.Balanced) (ha : net.Acyclic) (hp : net.PartsPlayed) :
    (∀ mode, ∃ net' n, (net.optimize mode).listen.1 = .ok (net', n)) ∧
    ∃ net' n, (net.optimize { once := false, allPasses := false }).listen.1 = .ok (net', n) ∧
      n + (net'.size + net'.summary.edges) ≤ net.size + net.summary.edges := by
  refine ⟨fun mode => ?_, ?_⟩
  · obtain ⟨⟨net', n⟩, hrun, -⟩ := optimize_yields mode hb ha hp #[]
    exact ⟨net', n, hrun⟩
  · have hfixed : (net.optimize { once := false, allPasses := false }).Yields fun r =>
        Shrinks r.2 net r.1 := optimize_shrinks rfl hb ha
    obtain ⟨⟨net', n⟩, hrun, hs⟩ := hfixed #[]
    exact ⟨net', n, hrun, hs.lighter⟩

/-- The lamp game has ten components and eleven edges, one of them listed twice. -/
theorem optimize_ends_lamp : lamp.Balanced ∧ lamp.Acyclic ∧ lamp.PartsPlayed ∧
    lamp.size = 10 ∧ lamp.summary.edges = 11 ∧
    (∃ net' n, (lamp.optimize { once := false, allPasses := true }).listen.1 = .ok (net', n)) ∧
    ∃ net' n, (lamp.optimize { once := false, allPasses := false }).listen.1 = .ok (net', n) ∧
      n + (net'.size + net'.summary.edges) ≤ lamp.size + lamp.summary.edges := by
  have hp : lamp.PartsPlayed := by decide
  obtain ⟨hall, hfixed⟩ := optimize_ends lamp lamp_balanced lamp_acyclic hp
  exact ⟨lamp_balanced, lamp_acyclic, hp, by decide, by decide, hall _, hfixed⟩

end Network

end GameNet
