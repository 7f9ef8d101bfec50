import GameNet.Proofs.Listing.Record
import GameNet.Proofs.Listing.Rows

/-!
Building a network: the components are those of the rows, with their edges as listed.

Both ends of an edge must know of each other.
-/

namespace GameNet

namespace Network

section Registered

variable {net net' : Network} {pairs : List (CompId × CompId)} {c : CompId}

theorem recast_inputs (net : Network) (pairs : List (CompId × CompId)) (c : CompId) (k : Component) :
    (net.recast pairs c k).inputs = k.inputs ∧ (net.recast pairs c k).outputs = k.outputs := by
  unfold recast Component.mapProposition
  split <;> exact ⟨rfl, rfl⟩

theorem Registered.inputsOf (h : Registered net pairs net') (c : CompId) :
    net'.inputsOf c = net.inputsOf c := by
  rw [Network.inputsOf, h.get? c, withInit, Network.inputsOf]
  split
  · next hc =>
    rw [hc.2, get?_capacity]
    exact (recast_inputs net pairs _ _).1
  · cases net.get? c with
    | none => rfl
    | some k => exact (recast_inputs net pairs c k).1

theorem Registered.outputsOf (h : Registered net pairs net') (c : CompId) :
    net'.outputsOf c = net.outputsOf c := by
  rw [Network.outputsOf, h.get? c, withInit, Network.outputsOf]
  split
  · next hc =>
    rw [hc.2, get?_capacity]
    exact (recast_inputs net pairs _ _).2
  · cases net.get? c with
    | none => rfl
    | some k => exact (recast_inputs net pairs c k).2

end Registered

end Network

namespace Listing

open Network

/-- The network has been built from the listing: `flat` has the components of the rows, and `pairs` are
its transitions with their bases. -/
structure Built (l : Listing) (flat : Network) (pairs : List (CompId × CompId)) (net : Network) :
    Prop where
  placed : Placed l.roles l.components.toList flat
  linked : flat.Linked
  recorded : Registered (flat.mapComponents Component.fitThresholds) pairs net

theorem build_ensures (l : Listing) : l.build.Ensures fun net => ∃ flat pairs, Built l flat pairs net := by
  refine .bind (.lift (assemble_ensures l)) fun flat hl => ?_
  have hparts : (flat.mapComponents Component.fitThresholds).parts =
      { roles := (flat.mapComponents Component.fitThresholds).roles } := by
    have h := hl.1.parts
    have hroles : flat.roles = l.roles := congrArg Network.roles h
    change flat.parts = { roles := flat.roles }
    rw [h, hroles]
  refine .mono (record_ensures hparts) fun net hnet => ?_
  obtain ⟨pairs, hr⟩ := hnet
  exact ⟨flat, pairs, hl.1, hl.2, hr⟩

section Built

variable {l : Listing} {flat net : Network} {pairs : List (CompId × CompId)}

theorem Built.inputsOf (h : Built l flat pairs net) (c : CompId) : net.inputsOf c = l.inputsOf c := by
  rw [h.recorded.inputsOf, ← h.placed.inputsOf, Network.inputsOf, get?_mapComponents, Network.inputsOf]
  cases flat.get? c with
  | none => rfl
  | some k => exact k.fitThresholds_keeps.1

theorem Built.outputsOf (h : Built l flat pairs net) (c : CompId) : net.outputsOf c = l.outputsOf c := by
  rw [h.recorded.outputsOf, ← h.placed.outputsOf, Network.outputsOf, get?_mapComponents, Network.outputsOf]
  cases flat.get? c with
  | none => rfl
  | some k => exact k.fitThresholds_keeps.2.1

end Built

/-- Every network that is built lists its edges as the listing does. Each end of an edge is there and
knows of the other, and they list it equally often just when they do so in the listing. -/
theorem edges_of_build (l : Listing) {net : Network} (h : l.build.listen.1 = .ok net) :
    (∀ c, net.inputsOf c = l.inputsOf c ∧ net.outputsOf c = l.outputsOf c) ∧
      (∀ a b, (b ∈ net.outputsOf a ↔ a ∈ net.inputsOf b) ∧
        (a ∈ net.inputsOf b → net.contains a = true ∧ net.contains b = true)) ∧
      (net.Balanced ↔ l.Balanced) := by
  obtain ⟨flat, pairs, hbuilt⟩ := build_ensures l _ net h
  have hmem : ∀ a b, b ∈ net.outputsOf a ↔ a ∈ net.inputsOf b := by
    intro a b
    rw [hbuilt.outputsOf, hbuilt.inputsOf, ← hbuilt.placed.outputsOf, ← hbuilt.placed.inputsOf]
    exact hbuilt.linked a b
  refine ⟨fun c => ⟨hbuilt.inputsOf c, hbuilt.outputsOf c⟩, fun a b => ⟨hmem a b, fun hab => ?_⟩, ?_⟩
  · exact ⟨contains_of_mem_outputsOf ((hmem a b).mpr hab), contains_of_mem_inputsOf hab⟩
  · simp only [Network.Balanced, Listing.Balanced, edgesOut, edgesIn, hbuilt.inputsOf,
      hbuilt.outputsOf]

def doubledEdge : Listing where
  roles := ["r"]
  components := #[
    { id := 0, count := 0, op := .proposition, outputs := [1, 1], label := some (.other, "a") },
    { id := 1, count := 0, op := .proposition, inputs := [0], label := some (.terminal, "terminal") }]

theorem doubledEdge_isOk : doubledEdge.build.listen.1.isOk := by decide +kernel

/-- The two ends of an edge need not list it equally often, so the network is not balanced. -/
theorem doubledEdge_unbalanced : ∃ net, doubledEdge.build.listen.1 = .ok net ∧
    net.contains 0 = true ∧ net.contains 1 = true ∧ net.edgesOut 0 1 = 2 ∧ net.edgesIn 0 1 = 1 := by
  obtain ⟨net, hnet⟩ := Checked.exists_of_isOk doubledEdge_isOk
  have hview : doubledEdge.build.listen.1.toOption.map (fun net =>
      (net.contains 0, net.contains 1, net.edgesOut 0 1, net.edgesIn 0 1)) =
        some (true, true, 2, 1) := by decide +kernel
  rw [hnet] at hview
  simp only [Except.toOption, Option.map_some, Option.some.injEq, Prod.mk.injEq] at hview
  exact ⟨net, hnet, hview.1, hview.2.1, hview.2.2.1, hview.2.2.2⟩

theorem edges_of_build_doubledEdge : ∃ net, doubledEdge.build.listen.1 = .ok net ∧
    net.outputsOf 0 = doubledEdge.outputsOf 0 ∧ net.inputsOf 1 = doubledEdge.inputsOf 1 ∧
      (1 ∈ net.outputsOf 0 ↔ 0 ∈ net.inputsOf 1) ∧ (net.Balanced ↔ doubledEdge.Balanced) := by
  obtain ⟨net, hnet⟩ := Checked.exists_of_isOk doubledEdge_isOk
  have h := edges_of_build doubledEdge hnet
  exact ⟨net, hnet, (h.1 0).2, (h.1 1).1, (h.2.1 0 1).1, h.2.2⟩

end Listing

end GameNet
