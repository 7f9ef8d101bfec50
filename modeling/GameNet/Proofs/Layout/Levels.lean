import GameNet.Proofs.Layout.Renaming

/-!
Scheduling assigns levels and changes nothing else. It succeeds only where nothing drives a source.
-/

namespace GameNet.Network

open List

structure Relevels (net net' : Network) : Prop where
  parts : { net'.parts with levels := [] } = { net.parts with levels := [] }
  capacity : net'.capacity = net.capacity
  component : ∀ c, ∃ level, net'.get? c = (net.get? c).map ({ · with level })

section Relevels

variable {net net' net'' : Network}

theorem update_ensures (net : Network) (c : CompId) (f : Component → Component) :
    (net.update c f).Ensures (· = net.modify c f) := by
  unfold update
  split
  · exact .pure rfl
  · exact .throw

theorem Relevels.modify (h : Relevels net net') (c : CompId) (level : Nat) :
    Relevels net (net'.modify c ({ · with level })) where
  parts := h.parts
  capacity := (capacity_modify net' c _).trans h.capacity
  component d := by
    obtain ⟨old, hd⟩ := h.component d
    rw [get?_modify, hd, Option.map_map]
    split
    · exact ⟨level, rfl⟩
    · exact ⟨old, rfl⟩

theorem relevels_mapComponents (net : Network) :
    Relevels net (net.mapComponents ({ · with level := 0 })) where
  parts := rfl
  capacity := Array.size_map
  component c := ⟨0, get?_mapComponents net _ c⟩

theorem setLevels_ensures (net : Network) (levels : List (List CompId)) :
    (net.setLevels levels).Ensures (Relevels net) := by
  have hlevel : ∀ (n : Nat) (level : List CompId) (cur : Network), Relevels net cur →
      (level.foldlM (fun net c => net.update c fun k => { k with level := n }) cur :
        Checked Network).Ensures (Relevels net) := by
    intro n level cur h
    refine Checked.partly.foldlM (fun _ => Relevels net) ?_ level cur h
    intro c _ cur h
    exact (update_ensures cur c _).mono fun _ hcur => hcur ▸ h.modify c n
  refine Checked.Ensures.bind (P := Relevels net) ?_ fun cur h => .pure ⟨?_, h.capacity, h.component⟩
  · refine Checked.partly.foldlM (fun _ => Relevels net) ?_ _ _ (relevels_mapComponents net)
    exact fun x _ cur h => hlevel x.2 x.1 cur h
  · exact h.parts

theorem Relevels.field {α : Type} (h : Relevels net net') (f : Network → α)
    (hf : ∀ net : Network, f { net.parts with levels := [] } = f net := by intro; rfl) :
    f net' = f net := by
  rw [← hf, h.parts, hf]

theorem Relevels.renames (h : Relevels net net') : Renames id net net' where
  injective := Function.injective_id
  component c k hk := by
    obtain ⟨level, hc⟩ := h.component c
    rw [hk] at hc
    exact ⟨level, hc.trans (by rw [Component.rename_id]; rfl)⟩
  onto d hd := by
    obtain ⟨level, hc⟩ := h.component d
    refine ⟨d, ?_, rfl⟩
    rwa [contains, hc, Option.isSome_map] at hd
  roles := h.field Network.roles
  bases := by rw [map_id]; exact .of_eq (h.field Network.bases)
  driven R hR := by
    rw [h.field Network.bases, h.field Network.transitions]
    exact hR
  start R hR := by
    rw [h.field Network.bases, h.field Network.initialState]
    exact hR
  inputs i := by
    rw [h.field Network.inputs]
    simp
  players := by
    rw [h.field Network.players, forall₂_same]
    exact fun p _ => ⟨rfl, by rw [map_id], by rw [map_id]⟩
  terminal := h.field Network.terminal
  init := by rw [Option.map_id]; exact h.field Network.init

end Relevels

/-! ## Scheduling -/

def Undriven (net : Network) : Prop := ∀ c ∈ Schedule.sources net, net.inputsOf c = []

theorem start_ensures (net : Network) : (Schedule.start net).Ensures fun _ => net.Undriven := by
  refine Checked.Ensures.bind (P := fun _ => net.Undriven) ?_ fun _ h => .pure h
  refine ((Checked.partly.mapM (R := fun c _ => net.inputsOf c = []) _ ?_).mono fun fed h c hc => ?_)
  · intro c _
    refine Checked.Ensures.bind (P := fun k => net.get? c = some k) ?_ fun k hk => ?_
    · exact fun k hk => get?_of_get hk
    cases hi : k.inputs.isEmpty with
    | true => exact .pure ((inputsOf_of_get? hk).trans (List.isEmpty_iff.mp hi))
    | false => exact Checked.Ensures.bind (P := fun _ => False) .throw fun _ h => h.elim
  · obtain ⟨_, _, h⟩ := exists_of_mem_right h.flip hc
    exact h

theorem schedule_ensures (net : Network) :
    net.schedule.Ensures fun net' => Relevels net net' ∧ net.Undriven := by
  unfold schedule
  refine Observed.Ensures.bind (.lift (start_ensures net)) fun s hu => ?_
  refine Observed.Ensures.bind .trivial fun s _ => ?_
  refine Observed.Ensures.bind .trivial fun levels _ => ?_
  exact .lift ((setLevels_ensures net levels).mono fun _ h => ⟨h, hu⟩)

theorem mem_sources {net : Network} {c : CompId} : c ∈ Schedule.sources net ↔
    c ∈ net.bases ∨ c ∈ net.inputs ∨ net.init = some c ∨ net.op? c = some .constant := by
  have hconst : (∃ a, (a ∈ net.components ∧ a.2.op = .constant) ∧ a.1 = c) ↔
      net.op? c = some .constant := by
    constructor
    · rintro ⟨⟨a, k⟩, ⟨hk, hop⟩, rfl⟩
      rw [op?_of_get? (mem_components.mp hk), hop]
    intro hop
    obtain ⟨k, hk, hop⟩ := Option.map_eq_some_iff.mp hop
    exact ⟨(c, k), ⟨mem_components.mpr hk, hop⟩, rfl⟩
  simp only [Schedule.sources, CompId.mem_sortedSet, mem_append, Option.mem_toList, mem_map,
    mem_filter, decide_eq_true_eq, hconst, or_assoc]

end GameNet.Network
