import GameNet.Proofs.Simplify.Factor
import GameNet.Proofs.Simplify.Flatten
import GameNet.Proofs.Simplify.Sharing
import GameNet.Proofs.Simplify.Survivors

/-!
The edges after each pass, in any network.

What a pass computes is only known where there are no cycles, but its edges are listed at both ends in
every network, with directed cycles and gates that feed themselves.
-/

namespace GameNet

theorem Kind.op_of_ofOp? {op : Op} {kind : Kind} (h : Kind.ofOp? op = some kind) : kind.op = op := by
  cases op <;> cases h <;> rfl

namespace Network

structure Intact (net : Network) : Prop where
  inputs : ∀ c, ∀ i ∈ net.inputsOf c, net.contains i = true
  outputs : ∀ c, ∀ o ∈ net.outputsOf c, net.contains o = true
  edges : ∀ a b, (net.outputsOf a).count b = (net.inputsOf b).count a

theorem Balanced.intact {net : Network} (h : net.Balanced) : net.Intact :=
  ⟨fun _ _ hi => h.contains_source hi, fun _ _ ho => h.contains_target ho, h⟩

theorem Edit.balanced {gone touched : CompId → Prop} {edges : CompId → CompId → Nat}
    {net net' : Network} (h : Edit gone touched edges net net') : net'.Balanced := h.wired.balanced

section Sweeps

variable {net : Network} {c : CompId} {k : Component}

theorem sweep_balanced {visit : Network → CompId → Component → Checked (Option Network)}
    (hv : ∀ net c k, net.Balanced → net.get? c = some k →
      (visit net c k).Yields fun r => ∀ net', r = some net' → net'.Balanced)
    (hb : net.Balanced) : (net.sweep visit).Yields fun r => r.1.Balanced :=
  sweep_yields (fun _ net => net.Balanced) (fun _ net c k => hv net c k) hb

theorem yields_none {P : Network → Prop} :
    (pure none : Checked (Option Network)).Yields fun r => ∀ net', r = some net' → P net' :=
  .pure fun _ h => by cases h

theorem balanced_of_exists {r : Option Network} {gone touched : CompId → Prop}
    {edges : CompId → CompId → Nat} (h : ∃ net', r = some net' ∧ Edit gone touched edges net net') :
    ∀ net', r = some net' → net'.Balanced := by
  obtain ⟨net', rfl, e⟩ := h
  rintro _ ⟨⟩
  exact e.balanced

theorem removePassThrough_balanced (hb : net.Balanced) (ops : List Op) (keep : List CompId) :
    (net.removePassThrough ops keep).Yields fun r => r.1.Balanced :=
  removePassThrough_keeps (fun _ net => net.Balanced) (fun _ _ h => h)
    (fun _ _ _ _ _ _ _ e => e.balanced) hb

theorem DoublyNegates.irrefl {x : CompId} (h : DoublyNegates net c x) (hne : x ≠ c) :
    net.edgesIn c c = 0 := by
  obtain ⟨-, i, hic, -, hxi⟩ := h
  have hi : c ≠ i := by
    rintro rfl
    exact hne (List.singleton_inj.mp (hxi.symm.trans hic))
  rw [edgesIn, hic, List.count_singleton, if_neg (by simpa using Ne.symm hi)]

theorem removeDoubleNegations_balanced (hb : net.Balanced) :
    net.removeDoubleNegations.Yields fun r => r.1.Balanced := by
  refine sweep_balanced (fun net c k hb hk => ?_) hb
  refine .bind (doublyNegated?_yields hb hk) fun r hr => ?_
  cases r with
  | none => exact yields_none
  | some x =>
    obtain ⟨hd, hne⟩ := hr x rfl
    exact (bypass_yields hb (hd.irrefl hne) hk (hd.contains hb) hne).mono fun r hr =>
      balanced_of_exists hr

theorem flatten_balanced (hb : net.Balanced) (op : Op) : (net.flatten op).Yields fun r => r.1.Balanced := by
  refine sweep_balanced (fun net c k hb hk => ?_) hb
  refine .bind (mergesForward_yields hb hk) fun r hr => ?_
  cases r with
  | false => exact yields_none
  | true =>
    have hcc : net.edgesIn c c = 0 := by
      rw [← hb, edgesOut, outputsOf_of_get? hk, List.count_eq_zero]
      exact (hr rfl).2
    exact (flatten_step hb hcc hk).mono fun r hr => balanced_of_exists hr

theorem factor_balanced (hb : net.Balanced) (x y : Op) : (net.factor x y).Yields fun r => r.1.Balanced := by
  unfold factor
  split
  · exact .pure hb
  next kind hkind =>
  refine sweep_balanced (fun net c k hb hk => ?_) hb
  split
  · exact yields_none
  refine .bind (factorable?_yields hb hk) fun r hr => ?_
  cases r with
  | none => exact yields_none
  | some common =>
    obtain ⟨hf, hcc⟩ := hr common rfl
    refine .bind (factorOut_yields hb hcc hk hf (Kind.op_of_ofOp? hkind)) fun net' h => .pure ?_
    rintro _ ⟨⟩
    exact h.wired.balanced

theorem dropRepeatedEdges_balanced (hb : net.Balanced) : net.dropRepeatedEdges.Yields fun r => r.1.Balanced :=
  dropRepeatedEdges_keeps (fun _ net => net.Balanced) (fun _ _ h => h)
    (fun _ _ _ _ _ _ _ e _ => e.balanced) (fun _ _ _ _ _ _ e _ => e.balanced) hb

end Sweeps

/-! ## Dead ends -/

theorem removeDeadEnds_balanced {net : Network} (hb : net.Balanced) (keep : List CompId) :
    (net.removeDeadEnds keep).Yields fun r => r.1.Balanced :=
  (removeDeadEnds_pruning hb keep).mono fun _ h => h.balanced

/-! ## Sharing -/

section Share

variable {net net' : Network} {c twin : CompId}

def NoSelfFeed (net : Network) : Prop :=
  ∀ c op, net.op? c = some op → op.isGate = true → net.edgesIn c c = 0

theorem noSelfFeed_iff : net.NoSelfFeed ↔
    ∀ c ∈ net.ids, (net.op? c).all (fun op => op.isGate) = true → net.edgesIn c c = 0 := by
  constructor
  · intro h c hc hgate
    obtain ⟨k, hk⟩ := contains_iff.mp (mem_ids.mp hc)
    rw [op?_of_get? hk, Option.all_some] at hgate
    exact h c k.op (op?_of_get? hk) hgate
  · intro h c op hop hgate
    exact h c (mem_ids.mpr (contains_of_op? hop)) (by rw [hop, Option.all_some, hgate])

instance (net : Network) : Decidable net.NoSelfFeed := decidable_of_iff' _ noSelfFeed_iff

theorem Twins.edgesIn_eq_zero (h : Twins net c twin) (hself : net.NoSelfFeed) :
    net.edgesIn c c = 0 ∧ net.edgesIn twin c = 0 ∧ net.edgesIn c twin = 0 := by
  obtain ⟨op, hgate, hc, htwin⟩ := h.gate
  have hcc := hself c op hc hgate
  have htt := hself twin op htwin hgate
  exact ⟨hcc, (h.edgesIn_eq twin).symm.trans htt, (h.edgesIn_eq c).trans hcc⟩

theorem Twins.noSelfFeed (h : Twins net c twin) (hself : net.NoSelfFeed)
    (e : Edit (· = c) (fun o => c ∈ net.inputsOf o) (net.merged c twin) net net') : net'.NoSelfFeed := by
  intro d op hop hgate
  have hdc : d ≠ c := e.not_gone (contains_of_op? hop)
  have hd := hself d op ((op?_of_face? (e.face d hdc)).symm.trans hop) hgate
  have hct := (h.edgesIn_eq_zero hself).2.2
  rw [e.wired.ins, merged, if_neg (by simp [hdc])]
  split
  · next hdt => rw [← hdt, hd, hdt, hct, Nat.max_self]
  · exact hd

theorem shareGates_balanced (hb : net.Balanced) (hself : net.NoSelfFeed) :
    net.shareGates.Yields fun r => r.1.Balanced := by
  refine (shareGates_keeps (fun _ net => net.Balanced ∧ net.NoSelfFeed) (fun _ _ h => h.1)
    (fun _ net1 c twin h htwins => ?_) (fun _ _ _ _ _ h htwins e => ?_) ⟨hb, hself⟩).mono fun _ h => h.1
  · obtain ⟨hcc, htc, -⟩ := htwins.edgesIn_eq_zero h.2
    exact ⟨hcc, htc⟩
  · exact ⟨e.balanced, htwins.noSelfFeed h.2 e⟩

end Share

/-! ## All passes -/

/-- Every pass finishes and leaves the edges in order, whatever cycles there are. Sharing does if no gate
feeds itself. -/
theorem passes_intact (net : Network) (hb : net.Balanced) (keep : List CompId) (ops : List Op)
    (x y op : Op) :
    (net.removeDeadEnds keep).Yields (fun r => r.1.Intact) ∧
    (net.factor x y).Yields (fun r => r.1.Intact) ∧
    (net.removePassThrough ops keep).Yields (fun r => r.1.Intact) ∧
    net.dropRepeatedEdges.Yields (fun r => r.1.Intact) ∧
    net.removeDoubleNegations.Yields (fun r => r.1.Intact) ∧
    (net.flatten op).Yields (fun r => r.1.Intact) ∧
    (net.NoSelfFeed → net.shareGates.Yields fun r => r.1.Intact) := by
  have hmono : ∀ {z : Checked (Network × Nat)}, (z.Yields fun r => r.1.Balanced) →
      z.Yields fun r => r.1.Intact := fun h => h.mono fun _ hr => hr.intact
  exact ⟨hmono (removeDeadEnds_balanced hb keep), hmono (factor_balanced hb x y),
    hmono (removePassThrough_balanced hb ops keep), hmono (dropRepeatedEdges_balanced hb),
    hmono (removeDoubleNegations_balanced hb), hmono (flatten_balanced hb op),
    fun hself => hmono (shareGates_balanced hb hself)⟩

def tangle : Network :=
  let prop (role : PropRole) (text : String) : Kind := .proposition { role, term := .atom text }
  { roles := ["hand"]
    slots := #[
      some { kind := prop .other "a", outputs := [1, 2, 3] },
      some { kind := .or, inputs := [0, 2], outputs := [2, 4] },
      some { kind := .or, inputs := [0, 1], outputs := [1, 3] },
      some { kind := .or, inputs := [2, 0], outputs := [4] },
      some { kind := prop .terminal "terminal", inputs := [1, 3] }]
    terminal := 4 }

theorem passes_intact_tangle : tangle.Balanced ∧ Relation.TransGen tangle.Feeds 1 1 ∧ tangle.NoSelfFeed ∧
    (tangle.flatten .or).Yields (fun r => r.1.Intact) ∧ tangle.shareGates.Yields fun r => r.1.Intact := by
  have hb : tangle.Balanced := by decide
  have hself : tangle.NoSelfFeed := by decide
  have h12 : tangle.Feeds 1 2 := (by decide : 1 ∈ tangle.inputsOf 2)
  have h21 : tangle.Feeds 2 1 := (by decide : 2 ∈ tangle.inputsOf 1)
  obtain ⟨-, -, -, -, -, hflat, hshare⟩ := passes_intact tangle hb [4] [.or] .and .or .or
  exact ⟨hb, .tail (.single h12) h21, hself, hflat, hshare hself⟩

def selfFed : Network :=
  let prop (role : PropRole) (text : String) : Kind := .proposition { role, term := .atom text }
  { roles := ["hand"]
    slots := #[
      some { kind := prop .other "a", outputs := [1, 2] },
      some { kind := .or, inputs := [2, 0], outputs := [3] },
      some { kind := .or, inputs := [2, 0], outputs := [1, 2, 3] },
      some { kind := prop .terminal "terminal", inputs := [1, 2] }]
    terminal := 3 }

/-- The gate that stays lists the one that goes as an output. -/
theorem shareGates_selfFed : selfFed.Balanced ∧ ∃ r, selfFed.shareGates = .ok r ∧
    2 ∈ r.1.outputsOf 1 ∧ r.1.contains 2 = false ∧ ¬ r.1.Intact := by
  have hok : (do
      let r ← selfFed.shareGates
      return (decide (2 ∈ r.1.outputsOf 1), r.1.contains 2) : Checked (Bool × Bool)) =
        .ok (true, false) := by decide
  cases hr : selfFed.shareGates with
  | error e =>
    rw [hr] at hok
    cases hok
  | ok r =>
    rw [hr] at hok
    obtain ⟨hmem, hgone⟩ := Prod.mk.inj (Except.ok.inj hok)
    have hmem := of_decide_eq_true hmem
    refine ⟨by decide, r, rfl, hmem, hgone, fun h => ?_⟩
    rw [h.outputs 1 2 hmem] at hgone
    cases hgone

end Network

end GameNet
