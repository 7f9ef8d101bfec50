import GameNet.Network.Basic

/-!
Which component stands at a number after each of the operations on networks.
-/

namespace GameNet

/-! ## Sorted ids -/

namespace CompId

theorem mem_dropRepeats {a : CompId} {ids : List CompId} : a ∈ dropRepeats ids ↔ a ∈ ids := by
  fun_induction dropRepeats ids with
  | case1 => rfl
  | case2 => rfl
  | case3 b rest ih => rw [ih]; simp
  | case4 b c rest hbc ih => rw [List.mem_cons, ih, List.mem_cons (l := c :: rest)]

theorem mem_sorted {a : CompId} {ids : List CompId} : a ∈ sorted ids ↔ a ∈ ids := mem_sortBy _

theorem mem_sortedSet {a : CompId} {ids : List CompId} : a ∈ sortedSet ids ↔ a ∈ ids := by
  rw [sortedSet, mem_dropRepeats, mem_sorted]

theorem pairwise_sorted (ids : List CompId) : (sorted ids).Pairwise (· ≤ ·) := by
  have h := pairwise_sortBy (fun a b : CompId => decide (a ≤ b))
    (fun a b c hab hbc => by
      simp only [decide_eq_true_eq] at hab hbc ⊢
      exact Nat.le_trans hab hbc)
    (fun a b => by simpa only [decide_eq_true_eq] using Nat.le_total a b) ids
  exact h.imp fun hab => by simpa only [decide_eq_true_eq] using hab

theorem sorted_eq_sorted_iff {ids ids' : List CompId} : sorted ids = sorted ids' ↔ ids.Perm ids' := by
  constructor
  · intro h
    exact ((sortBy_perm _ ids).symm.trans (.of_eq h)).trans (sortBy_perm _ ids')
  · intro h
    refine List.Perm.eq_of_pairwise (fun a b _ _ hab hba => Nat.le_antisymm hab hba)
      (pairwise_sorted ids) (pairwise_sorted ids') ?_
    exact ((sortBy_perm _ ids).trans h).trans (sortBy_perm _ ids').symm

theorem pairwise_dropRepeats {ids : List CompId} (h : ids.Pairwise (· ≤ ·)) :
    (dropRepeats ids).Pairwise (· < ·) := by
  fun_induction dropRepeats ids with
  | case1 => exact .nil
  | case2 a => exact List.pairwise_singleton _ a
  | case3 b rest ih => exact ih (List.pairwise_cons.mp h).2
  | case4 b c rest hbc ih =>
    obtain ⟨hb, hrest⟩ := List.pairwise_cons.mp h
    refine List.pairwise_cons.mpr ⟨fun a ha => ?_, ih hrest⟩
    have hba := hb c List.mem_cons_self
    rcases List.mem_cons.mp (mem_dropRepeats.mp ha) with rfl | ha
    · exact Nat.lt_of_le_of_ne hba hbc
    · exact Nat.lt_of_lt_of_le (Nat.lt_of_le_of_ne hba hbc) ((List.pairwise_cons.mp hrest).1 a ha)

theorem nodup_sortedSet (ids : List CompId) : (sortedSet ids).Nodup :=
  (pairwise_dropRepeats (pairwise_sorted ids)).imp Nat.ne_of_lt

end CompId

namespace Network

/-! ## Looking up -/

theorem contains_iff {net : Network} {c : CompId} : net.contains c = true ↔ ∃ k, net.get? c = some k := by
  rw [contains, Option.isSome_iff_exists]

theorem get_of_get? {net : Network} {c : CompId} {k : Component} (h : net.get? c = some k) :
    net.get c = .ok k := by
  simp only [get, h, pure, Except.pure]

theorem get?_of_get {net : Network} {c : CompId} {k : Component} (h : net.get c = .ok k) :
    net.get? c = some k := by
  unfold get at h
  split at h
  · next k' hk => cases h; exact hk
  · cases h

theorem mem_components {net : Network} {c : CompId} {k : Component} :
    (c, k) ∈ net.components ↔ net.get? c = some k := by
  simp only [components, get?, List.mem_filterMap, List.mem_zipIdx_iff_getElem?, Array.getElem?_toList]
  constructor
  · rintro ⟨⟨slot, i⟩, hs, hm⟩
    cases slot with
    | none => simp at hm
    | some k' =>
      simp only [Option.map_some, Option.some.injEq, Prod.mk.injEq] at hm
      obtain ⟨rfl, rfl⟩ := hm
      rw [hs]; rfl
  · intro h
    rw [Option.join_eq_some_iff] at h
    exact ⟨(some k, c), h, rfl⟩

theorem forall_components {net : Network} {P : CompId → Component → Prop} :
    (∀ c k, net.get? c = some k → P c k) ↔ ∀ x ∈ net.components, P x.1 x.2 :=
  ⟨fun h x hx => h x.1 x.2 (mem_components.mp hx), fun h c k hk => h (c, k) (mem_components.mpr hk)⟩

theorem mem_ids {net : Network} {c : CompId} : c ∈ net.ids ↔ net.contains c = true := by
  simp only [ids, List.mem_map, contains_iff, Prod.exists, mem_components]
  constructor
  · rintro ⟨_, k, hk, rfl⟩; exact ⟨k, hk⟩
  · rintro ⟨k, hk⟩; exact ⟨c, k, hk, rfl⟩

theorem pairwise_ids (net : Network) : net.ids.Pairwise (· < ·) := by
  have hsub : net.ids.Sublist (net.slots.toList.zipIdx.map (·.2)) := by
    rw [ids, components, List.map_filterMap]
    generalize net.slots.toList.zipIdx = l
    induction l with
    | nil => exact .slnil
    | cons s l ih =>
      obtain ⟨k, c⟩ := s
      cases k with
      | none => exact ih.cons c
      | some k => exact ih.cons_cons c
  refine List.Pairwise.sublist hsub ?_
  rw [List.zipIdx_map_snd]
  exact List.pairwise_lt_range'

theorem nodup_ids (net : Network) : net.ids.Nodup := net.pairwise_ids.imp Nat.ne_of_lt

/-! ## Changing -/

theorem get?_modify (net : Network) (c d : CompId) (f : Component → Component) :
    (net.modify c f).get? d = if d = c then (net.get? d).map f else net.get? d := by
  simp only [get?, modify, Array.getElem?_modify]
  by_cases h : d = c
  · rw [if_pos h, if_pos h.symm]
    cases net.slots[d]? with
    | none => rfl
    | some slot => cases slot <;> rfl
  · rw [if_neg h, if_neg (Ne.symm h)]

@[simp] theorem get?_mapComponents (net : Network) (f : Component → Component) (d : CompId) :
    (net.mapComponents f).get? d = (net.get? d).map f := by
  simp only [get?, mapComponents, Array.getElem?_map]
  cases net.slots[d]? with
  | none => rfl
  | some slot => cases slot <;> rfl

theorem get?_remove (net : Network) (c d : CompId) :
    (net.remove c).get? d = if d = c then none else net.get? d := by
  simp only [get?, remove, Array.getElem?_modify]
  by_cases h : d = c
  · rw [if_pos h, if_pos h.symm]
    cases net.slots[d]? <;> rfl
  · rw [if_neg h, if_neg (Ne.symm h)]

theorem get?_add (net : Network) (kind : Kind) (count : Int) (d : CompId) : (net.add kind count).2.get? d =
      if d = net.capacity then some (.new kind count) else net.get? d := by
  simp only [get?, add, Array.getElem?_push]
  by_cases h : d = net.capacity
  · rw [if_pos h, if_pos (by exact h)]; rfl
  · rw [if_neg h, if_neg (by exact h)]

@[simp] theorem get?_reserve (net : Network) (c d : CompId) : (net.reserve c).get? d = net.get? d := by
  simp only [get?, reserve, Array.getElem?_append]
  by_cases h : d < net.slots.size
  · rw [if_pos h]
  · rw [if_neg h, Array.getElem?_eq_none (Nat.le_of_not_lt h), Array.getElem?_replicate]
    split <;> rfl

@[simp] theorem capacity_modify (net : Network) (c : CompId) (f : Component → Component) :
    (net.modify c f).capacity = net.capacity := by
  simp only [capacity, modify, Array.size_modify]

theorem modify_congr {net : Network} {c : CompId} {f g : Component → Component}
    (h : ∀ k, net.get? c = some k → f k = g k) : net.modify c f = net.modify c g := by
  have hs : net.slots.modify c (Option.map f) = net.slots.modify c (Option.map g) := by
    apply Array.ext_getElem?
    intro d
    rw [Array.getElem?_modify, Array.getElem?_modify]
    split
    · next hd =>
      subst hd
      rcases hk : net.slots[c]? with _ | _ | k
      · rfl
      · rfl
      · have hget : net.get? c = some k := by rw [get?, hk]; rfl
        rw [Option.map_some, Option.map_some, Option.map_some, Option.map_some, h k hget]
    · rfl
  rw [modify, modify, hs]

theorem modify_id (net : Network) (c : CompId) : net.modify c id = net := by
  have hs : net.slots.modify c (Option.map id) = net.slots := by
    apply Array.ext_getElem?
    intro d
    rw [Array.getElem?_modify]
    split
    · rw [Option.map_id_fun, Option.map_id_fun, id]
    · rfl
  rw [modify, hs]

theorem modify_of_none {net : Network} {c : CompId} (h : net.get? c = none)
    (f : Component → Component) : net.modify c f = net := by
  have hid : net.modify c f = net.modify c id := modify_congr fun k hk => by rw [h] at hk; cases hk
  rw [hid, modify_id]

theorem lt_capacity_of_get? {net : Network} {c : CompId} {k : Component}
    (h : net.get? c = some k) : c < net.capacity := by
  rw [get?, Option.join_eq_some_iff] at h
  exact (Array.getElem?_eq_some_iff.mp h).1

theorem get?_insert? {net net' : Network} {c d : CompId} {k : Component}
    (h : net.insert? c k = some net') : net'.get? d = if d = c then some k else net.get? d := by
  unfold insert? at h
  split at h
  · cases h
  · cases h
    rw [← get?_reserve net c d]
    have room (n c : Nat) : c < n + (c + 1 - n) := by omega
    have hc : c < (net.reserve c).slots.size := by
      simp only [reserve, Array.size_append, Array.size_replicate]
      exact room _ _
    simp only [get?, Array.set!_eq_setIfInBounds, Array.getElem?_setIfInBounds]
    by_cases hd : d = c
    · rw [if_pos hd, if_pos hd.symm, if_pos hc]; rfl
    · rw [if_neg hd, if_neg (Ne.symm hd)]

end Network

end GameNet
