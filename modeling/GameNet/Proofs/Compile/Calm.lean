import GameNet.Proofs.Compile.Stages

/-!
Only the scheduler speaks of cycles.

Whatever a network looks like, no other part of the compiler warns of a forced cycle or fails with a
component that cannot be scheduled.
-/

namespace GameNet

open List

def Fault.Unschedulable (e : Fault) : Prop := ∃ site, e = .compile (.schedule site)

@[simp] theorem not_unschedulable_crash (c : Crash) : ¬ Fault.Unschedulable (.crash c) := by
  simp [Fault.Unschedulable]

@[simp] theorem unschedulable_compile (e : CompileError) :
    Fault.Unschedulable (.compile e) ↔ ∃ site, e = .schedule site := by
  simp [Fault.Unschedulable]

@[simp] theorem Network.not_unschedulable_invariant (net : Network) (c : CompId) (cause : InvariantCause) :
    ¬ (net.invariant c cause).Unschedulable := by
  simp [Network.invariant]

@[simp] theorem Network.not_unschedulable_structural (net : Network) (c : CompId)
    (cause : StructuralCause) : ¬ (net.structural c cause).Unschedulable := by
  simp [Network.structural]

def Event.ForcedCycle (e : Event) : Prop := ∃ level size, e = .warning (.forcedCycle level size)

/-! ## Faults -/

namespace Checked

variable {α β σ : Type} {x : Checked α} {f : α → Checked β}

def Calm (x : Checked α) : Prop := ∀ e, x = .error e → ¬ e.Unschedulable

@[simp] theorem calm_pure (a : α) : Calm (pure a) := by
  intro e he
  cases he

@[simp] theorem calm_throw {e : Fault} : Calm (throw e : Checked α) ↔ ¬ e.Unschedulable := by
  constructor
  · exact fun h => h e rfl
  rintro h e' he
  cases he
  exact h

@[simp] theorem calm_bind : Calm (x >>= f) ↔ Calm x ∧ ∀ a, x = .ok a → Calm (f a) := by
  cases x with
  | error e =>
    refine calm_throw.trans ⟨fun h => ⟨calm_throw.mpr h, fun a ha => ?_⟩, fun h => calm_throw.mp h.1⟩
    cases ha
  | ok a =>
    refine ⟨fun h => ⟨calm_pure a, fun b hb => ?_⟩, fun h => h.2 a rfl⟩
    cases hb
    exact h

@[simp] theorem calm_map {f : α → β} : Calm (f <$> x) ↔ Calm x := by
  cases x with
  | error e => exact calm_throw.trans calm_throw.symm
  | ok a => exact iff_of_true (calm_pure (f a)) (calm_pure a)

@[simp] theorem calm_ite {p : Prop} [Decidable p] {y : Checked α} :
    Calm (if p then x else y) ↔ (p → Calm x) ∧ (¬ p → Calm y) := by
  split
  · next h => simp [h]
  · next h => simp [h]

@[simp] theorem calm_foldlM {f : σ → α → Checked σ} (hf : ∀ s a, Calm (f s a)) (as : List α) (s : σ) :
    Calm (as.foldlM f s) := by
  induction as generalizing s with
  | nil => exact calm_pure s
  | cons a as ih =>
    rw [foldlM_cons]
    exact calm_bind.mpr ⟨hf s a, fun s' _ => ih s'⟩

@[simp] theorem calm_mapM (hf : ∀ a, Calm (f a)) (as : List α) : Calm (as.mapM f) := by
  induction as with
  | nil => exact calm_pure []
  | cons a as ih =>
    rw [mapM_cons]
    simp [hf a, ih]

@[simp] theorem calm_optionMapM (hf : ∀ a, Calm (f a)) (o : Option α) : Calm (o.mapM f) := by
  cases o with
  | none => exact calm_pure none
  | some a => exact calm_map.mpr (hf a)

@[simp] theorem calm_forM {f : α → Checked PUnit} (hf : ∀ a, Calm (f a)) (as : List α) :
    Calm (forM as f) := by
  induction as with
  | nil => exact calm_pure PUnit.unit
  | cons a as ih => exact calm_bind.mpr ⟨hf a, fun _ _ => ih⟩

@[simp] theorem calm_forIn {f : α → PUnit → Checked (ForInStep PUnit)} (hf : ∀ a u, Calm (f a u))
    (as : List α) (u : PUnit) : Calm (forIn as u f) := by
  induction as generalizing u with
  | nil => exact calm_pure u
  | cons a as ih =>
    rw [forIn_cons]
    refine calm_bind.mpr ⟨hf a u, fun r _ => ?_⟩
    cases r with
    | done u => exact calm_pure u
    | yield u => exact ih u

@[simp] theorem calm_filterM {f : α → Checked Bool} (hf : ∀ a, Calm (f a)) (as : List α) :
    Calm (as.filterM f) := by
  have haux : ∀ acc, Calm (List.filterAuxM f as acc) := by
    induction as with
    | nil => exact fun acc => calm_pure acc
    | cons a as ih =>
      intro acc
      rw [List.filterAuxM]
      exact calm_bind.mpr ⟨hf a, fun _ _ => ih _⟩
  exact calm_bind.mpr ⟨haux [], fun _ _ => calm_pure _⟩

@[simp] theorem calm_allM {f : α → Checked Bool} (hf : ∀ a, Calm (f a)) (as : List α) : Calm (as.allM f) := by
  induction as with
  | nil => exact calm_pure true
  | cons a as ih =>
    refine calm_bind.mpr ⟨hf a, fun b _ => ?_⟩
    cases b with
    | true => exact ih
    | false => exact calm_pure false

@[simp] theorem calm_anyM {f : α → Checked Bool} (hf : ∀ a, Calm (f a)) (as : List α) : Calm (as.anyM f) := by
  induction as with
  | nil => exact calm_pure false
  | cons a as ih =>
    refine calm_bind.mpr ⟨hf a, fun b _ => ?_⟩
    cases b with
    | true => exact calm_pure true
    | false => exact ih

end Checked

def Checked.calmly : Guarantee Checked where
  holds x P := x.Ensures P ∧ x.Calm
  pure h := ⟨.pure h, calm_pure _⟩
  bind hx hf := ⟨hx.1.bind fun a ha => (hf a ha).1, calm_bind.mpr ⟨hx.2, fun a ha => (hf a (hx.1 a ha)).2⟩⟩
  mono h hP := ⟨h.1.mono hP, h.2⟩

@[simp] theorem Checked.calm_run {α σ : Type} {turn : σ → Checked (Turn σ α)} (ht : ∀ s, Calm (turn s))
    (bound : Nat) (s : σ) : Calm (Loop.run bound turn s) := by
  have hstep : ∀ s, Checked.calmly.holds (turn s) (Guarantee.Reaches (fun _ => True) fun _ => True) := by
    refine fun s => ⟨fun r _ => ?_, ht s⟩
    cases r <;> trivial
  exact (Checked.calmly.run_of_exhausted _ _ (fun s _ => hstep s)
    ⟨.throw, calm_throw.mpr (not_unschedulable_crash _)⟩ (s := s) trivial).2

open Checked

namespace Network

/-! ### Stages -/

@[simp] theorem calm_get (net : Network) (c : CompId) : (net.get c).Calm := by
  unfold get
  split <;> simp

@[simp] theorem calm_update (net : Network) (c : CompId) (f : Component → Component) :
    (net.update c f).Calm := by
  simp [update]

@[simp] theorem calm_op (net : Network) (c : CompId) : (net.op c).Calm := by
  simp [op]

@[simp] theorem calm_partner (partners : List CompId) (i : Nat) : (partner partners i).Calm := by
  unfold partner
  split <;> simp

section

variable (net : Network)

@[simp] theorem calm_refresh (c : CompId) : (net.refresh c).Calm := by
  simp [refresh]

theorem calm_endAtLegal (l : CompId) : (net.endAtLegal l).Calm := by
  unfold endAtLegal
  refine calm_bind.mpr ⟨calm_get net l, fun k _ => calm_ite.mpr ⟨fun _ => calm_pure none, fun _ => ?_⟩⟩
  split <;> simp [replaceOutput, replaceInput]

theorem calm_endAtLegals : net.endAtLegals.Calm := by
  unfold endAtLegals
  refine calm_foldlM (fun s l => ?_) _ _
  refine calm_bind.mpr ⟨calm_endAtLegal s.1 l, fun r _ => ?_⟩
  cases r <;> exact calm_pure _

@[simp] theorem calm_propagate (c : CompId) (v : Bool) : (net.propagate c v).Calm := by
  have hturn : ∀ s, (Forward.turn s).Calm := by
    intro s
    unfold Forward.turn
    split
    split <;> simp [Forward.touch]
  simp [propagate, forward, hturn]

@[simp] theorem calm_recount (roots : List CompId) (compare : Bool) : (net.recount roots compare).Calm := by
  have hinput : ∀ s i, (Recount.inputValue s i).Calm := by
    simp [Recount.inputValue]
  have hleaf : ∀ s c k, (Recount.leaf s c k).Calm := by
    simp [Recount.leaf]
  have hfollow : ∀ s c k many, (Recount.follow s c k many).Calm := by
    intro s c k many
    unfold Recount.follow
    split <;> simp [hinput, hleaf]
  have hcount : ∀ s c, (Recount.count s c).Calm := by
    intro s c
    unfold Recount.count
    refine calm_bind.mpr ⟨calm_get _ _, fun k _ => ?_⟩
    split
    case h_6 => split <;> simp [hleaf, hfollow]
    all_goals simp [hinput, hleaf, hfollow]
  refine calm_run (fun s => ?_) _ _
  unfold Recount.turn
  split <;> simp [hcount]

theorem calm_deriveInitialState : net.deriveInitialState.Calm := by
  unfold deriveInitialState
  split <;> simp

end

@[simp] theorem calm_fold (s : Constants.State) (c : CompId) (v : Bool) : (Constants.fold s c v).Calm := by
  have hnotify : ∀ s o k v, (Constants.notify s o k v).Calm := by
    intro s o k v
    unfold Constants.notify
    split <;> simp
  have hcut : ∀ c v s o, (Constants.cut c v s o).Calm := by
    intro c v s o
    unfold Constants.cut
    split <;> simp [hnotify]
  have hdetach : ∀ net c, (Constants.detach net c).Calm := by
    intro net c
    refine calm_bind.mpr ⟨calm_get net c, fun k _ => ?_⟩
    split <;> simp
  refine calm_run (fun s => ?_) _ _
  unfold Constants.turn
  split
  · exact calm_pure _
  · refine calm_bind.mpr ⟨hdetach _ _, fun d _ => calm_map.mpr ?_⟩
    exact calm_foldlM (hcut _ _) _ _

section

variable (net : Network)

@[simp] theorem calm_dropComponents (cs : List CompId) : (net.dropComponents cs).Calm := by
  simp [dropComponents, isolate]

theorem calm_capFanIn (cap : Nat) : (net.capFanIn cap).Calm := by
  have hgather : ∀ kind c net run, (FanIn.gather kind c net run).Calm := by
    simp [FanIn.gather, replaceOutput, link]
  have hsplit : ∀ cap net c, (FanIn.split cap net c).Calm := by
    intro cap net c
    refine calm_bind.mpr ⟨calm_get net c, fun k _ => ?_⟩
    split <;> simp [hgather]
  simp [capFanIn, FanIn.turn, hsplit]

theorem calm_verify (level : VerifyLevel) (cap : Nat) : (net.verify level cap).Calm := by
  have hedges : ∀ c k, (net.verifyEdges c k).Calm := by
    intro c k
    unfold verifyEdges
    refine calm_bind.mpr ⟨calm_forIn (fun o _ => ?_) _ _, fun _ _ => calm_bind.mpr
      ⟨calm_forIn (fun i _ => ?_) _ _, fun _ _ => calm_pure _⟩⟩
    · split <;> simp
    · split <;> simp
  have hbase : ∀ b t, (net.verifyBase b t).Calm := by
    intro b t
    unfold verifyBase
    split
    · split <;> simp
    · simp
  have hlegal : ∀ l i, (net.verifyLegal l i).Calm := by
    intro l i
    unfold verifyLegal
    split <;> simp
  have hplayer : ∀ p, (net.verifyPlayer p).Calm := by
    intro p
    unfold verifyPlayer
    split <;> simp [hlegal]
  have hinv : (net.checkInvariants cap).Calm := by
    simp [checkInvariants, verifyGate, hedges, hbase, hplayer]
  unfold verify
  split
  · exact calm_pure _
  · exact hinv
  · exact calm_bind.mpr ⟨hinv, fun _ _ => calm_map.mpr (calm_recount _ _ _)⟩

theorem calm_sortByTerm (part : Nat) (cs : List CompId) : (net.sortByTerm part cs).Calm := by
  unfold sortByTerm
  split <;> simp [termKey]

theorem calm_reorderBases : net.reorderBases.Calm := by
  unfold reorderBases
  refine calm_bind.mpr ⟨calm_sortByTerm _ _ _, fun bases _ => ?_⟩
  refine calm_bind.mpr ⟨calm_mapM (fun b => ?_) _, fun order _ => ?_⟩
  · split <;> simp
  · refine calm_bind.mpr ⟨calm_mapM (fun i => ?_) _, fun _ _ => calm_pure _⟩
    split <;> simp

theorem calm_reorderLegals : net.reorderLegals.Calm := by
  have hpaired : ∀ l, (net.pairedInputOf l).Calm := by
    intro l
    refine calm_bind.mpr ⟨calm_get net l, fun k _ => ?_⟩
    split <;> simp
  simp [reorderLegals, calm_sortByTerm, hpaired]

theorem calm_reorderComponents : net.reorderComponents.Calm := by
  have hnew : ∀ table c, (newNumber table c).Calm := by
    intro table c
    unfold newNumber
    split <;> simp
  have hcomponent : ∀ table (k : Component), (k.renumber (newNumber table)).Calm := by
    intro table k
    unfold Component.renumber
    refine calm_bind.mpr ⟨calm_mapM (hnew table) _, fun inputs _ => ?_⟩
    refine calm_bind.mpr ⟨calm_mapM (hnew table) _, fun outputs _ => ?_⟩
    split <;> simp [hnew]
  simp [reorderComponents, canonicalOrder, renumber, newNumbers, Player.renumber, hnew, hcomponent]

end

/-! ### Passes -/

@[simp] theorem calm_sweep {visit : Network → CompId → Component → Checked (Option Network)}
    (hv : ∀ net c k, (visit net c k).Calm) (net : Network) : (net.sweep visit).Calm := by
  refine calm_foldlM (fun s c => ?_) _ _
  obtain ⟨net, n⟩ := s
  dsimp only
  split
  · exact calm_pure _
  · refine calm_bind.mpr ⟨hv _ _ _, fun r _ => ?_⟩
    cases r <;> exact calm_pure _

section

variable (net : Network)

@[simp] theorem calm_removeDeadEnds (keep : List CompId) : (net.removeDeadEnds keep).Calm := by
  refine calm_run (fun s => ?_) _ _
  unfold DeadEnds.turn
  split
  · exact calm_pure _
  · split <;> simp

@[simp] theorem calm_shareGates : net.shareGates.Calm := by
  have hmerge : ∀ (net : Network) c twin outputs, (net.mergeInto c twin outputs).Calm := by
    simp [mergeInto, dropEdge, unlink, replaceInput, pushOutput]
  refine calm_bind.mpr ⟨calm_foldlM (fun s c => ?_) _ _, fun _ _ => calm_pure _⟩
  obtain ⟨net, seen, n⟩ := s
  dsimp only
  split
  · exact calm_pure _
  · refine calm_ite.mpr ⟨fun _ => calm_pure _, fun _ => ?_⟩
    split <;> simp [hmerge]

@[simp] theorem calm_factor (x y : Op) : (net.factor x y).Calm := by
  have hcommon : ∀ (net : Network) cs, (net.commonInputs cs).Calm := by
    intro net cs
    cases cs <;> simp [commonInputs]
  have hout : ∀ (net : Network) kind c k common, (net.factorOut kind c k common).Calm := by
    simp [factorOut, unlink, link, replaceInput, pushOutput]
  unfold factor
  split
  · exact calm_pure _
  refine calm_sweep (fun net c k => calm_ite.mpr ⟨fun _ => calm_pure _, fun _ => ?_⟩) _
  refine calm_bind.mpr ⟨by simp [factorable?, hcommon], fun r _ => ?_⟩
  cases r <;> simp [hout]

@[simp] theorem calm_removePassThrough (ops : List Op) (keep : List CompId) :
    (net.removePassThrough ops keep).Calm := by
  refine calm_sweep (fun net c k => calm_ite.mpr ⟨fun _ => calm_pure _, fun _ => ?_⟩) _
  split <;> simp [spliceOut, replaceInput]

@[simp] theorem calm_dropRepeatedEdges : net.dropRepeatedEdges.Calm := by
  simp [dropRepeatedEdges, dropRepeatedOutputs, dropEdge, unlink]

@[simp] theorem calm_removeDoubleNegations : net.removeDoubleNegations.Calm := by
  have hdouble : ∀ (net : Network) c k, (net.doublyNegated? c k).Calm := by
    intro net c k
    refine calm_ite.mpr ⟨fun _ => calm_pure _, fun _ => ?_⟩
    split
    · refine calm_bind.mpr ⟨calm_get _ _, fun ik _ => ?_⟩
      split <;> simp
    · exact calm_pure _
  refine calm_sweep (fun net c k => calm_bind.mpr ⟨hdouble _ _ _, fun r _ => ?_⟩) _
  cases r <;> simp [isolate, link]

@[simp] theorem calm_flatten (op : Op) : (net.flatten op).Calm := by
  have hmerges : ∀ (net : Network) c k, (net.mergesForward op c k).Calm := by
    simp [mergesForward]
  have hmissing : ∀ (net : Network) inputs o, (net.linkMissing inputs o).Calm := by
    simp [linkMissing, link]
  refine calm_sweep (fun net c k => calm_bind.mpr ⟨hmerges _ _ _, fun _ _ => ?_⟩) _
  simp [isolate, hmissing]

end

end Network

/-! ## What an observer hears -/

def Observed.calmly : Guarantee Observed where
  holds x P := ∀ told, Checked.calmly.holds (x.outcome told).1 P ∧
    ∀ e ∈ (x.outcome told).2, e.ForcedCycle → e ∈ told
  pure h _ := ⟨Checked.calmly.pure h, fun _ he _ => he⟩
  bind {α β x f P Q} hx hf told := by
    obtain ⟨h, hheard⟩ := hx told
    rw [Observed.outcome_bind]
    generalize x.outcome told = r at h hheard ⊢
    obtain ⟨r, told'⟩ := r
    cases r with
    | error e => exact ⟨⟨.throw, calm_throw.mpr (calm_throw.mp h.2)⟩, hheard⟩
    | ok a =>
      obtain ⟨h', hheard'⟩ := hf a (h.1 a rfl) told'
      exact ⟨h', fun e he hc => hheard e (hheard' e he hc) hc⟩
  mono h hP told := ⟨Checked.calmly.mono (h told).1 hP, (h told).2⟩

namespace Observed

variable {α β σ : Type} {x : Observed α} {f : α → Observed β} {P : α → Prop}

def Calm (x : Observed α) : Prop := calmly.holds x fun _ => True

theorem Calm.pure (a : α) : Calm (Pure.pure a) := calmly.pure trivial

theorem Calm.lift {y : Checked α} (h : y.Calm) : Calm (liftM y) :=
  fun _ => ⟨⟨fun _ _ => trivial, h⟩, fun _ he _ => he⟩

protected theorem Calm.throw {e : Fault} (h : ¬ e.Unschedulable) : Calm (throw e : Observed α) :=
  .lift (calm_throw.mpr h)

theorem Calm.throw_bind {e : Fault} (h : ¬ e.Unschedulable) : Calm ((throw e : Observed α) >>= f) :=
  .throw h

theorem Calm.ite {p : Prop} [Decidable p] {y : Observed α} (hx : Calm x) (hy : Calm y) :
    Calm (if p then x else y) := by
  split
  · exact hx
  · exact hy

theorem Calm.tell {e : Event} (h : ¬ e.ForcedCycle) : Calm (tell e) := by
  refine fun told => ⟨⟨fun _ _ => trivial, calm_pure ()⟩, fun e' he' hc => ?_⟩
  rcases Array.mem_push.mp he' with hold | rfl
  · exact hold
  · exact absurd hc h

theorem Calm.stage (name : String) (net : Network) : Calm (stage name net) := by
  refine .tell ?_
  simp [Event.ForcedCycle]

theorem Calm.bind_of (hx : Calm x) (hP : x.Ensures P) (hf : ∀ a, P a → Calm (f a)) : Calm (x >>= f) :=
  calmly.bind (fun told => ⟨⟨hP told, (hx told).1.2⟩, (hx told).2⟩) hf

theorem Calm.bind (hx : Calm x) (hf : ∀ a, Calm (f a)) : Calm (x >>= f) :=
  calmly.bind hx fun a _ => hf a

theorem Calm.foldlM {f : σ → α → Observed σ} (hf : ∀ s a, Calm (f s a)) (as : List α) (s : σ) :
    Calm (as.foldlM f s) :=
  calmly.foldlM (fun _ _ => True) (fun a _ s _ => hf s a) as s trivial

theorem Calm.mapM (hf : ∀ a, Calm (f a)) (as : List α) : Calm (as.mapM f) :=
  calmly.mono (calmly.mapM (R := fun _ _ => True) as fun a _ => hf a) fun _ _ => trivial

theorem Calm.forIn {f : α → PUnit → Observed (ForInStep PUnit)} (hf : ∀ a u, Calm (f a u))
    (as : List α) (u : PUnit) : Calm (forIn as u f) := by
  induction as generalizing u with
  | nil => exact .pure u
  | cons a as ih =>
    rw [forIn_cons]
    refine .bind (hf a u) fun r => ?_
    cases r with
    | done u => exact .pure u
    | yield u => exact ih u

theorem Calm.run {turn : σ → Observed (Turn σ α)} (ht : ∀ s, Calm (turn s)) (bound : Nat) (s : σ) :
    Calm (Loop.run bound turn s) := by
  have hstep : ∀ s, calmly.holds (turn s) (Guarantee.Reaches (fun _ => True) fun _ => True) := by
    refine fun s => calmly.mono (ht s) fun r _ => ?_
    cases r <;> trivial
  exact calmly.run_of_exhausted _ _ (fun s _ => hstep s) (Calm.throw (not_unschedulable_crash _)) trivial

end Observed

open Observed

/-! ## Building -/

namespace Listing

theorem calm_assemble (l : Listing) : l.assemble.Calm := by
  have hkind : ∀ roles raw, (kindOf roles raw).Calm := by
    intro roles raw
    unfold kindOf
    split
    · refine calm_bind.mpr ⟨?_, fun t _ => ?_⟩
      · unfold readTerm
        split <;> simp
      · split <;> simp
    all_goals simp
  have hadd : ∀ net raw, (addComponent net raw).Calm := by
    intro net raw
    refine calm_bind.mpr ⟨hkind _ _, fun kind _ => ?_⟩
    dsimp only
    split <;> simp
  have hedges : ∀ (net : Network) c k, (net.checkEdgesOf c k).Calm := by
    intro net c k
    unfold Network.checkEdgesOf
    refine calm_bind.mpr ⟨calm_forIn (fun o _ => ?_) _ _, fun _ _ => calm_bind.mpr
      ⟨calm_forIn (fun i _ => ?_) _ _, fun _ _ => calm_pure _⟩⟩
    · split <;> simp
    · split <;> simp
  refine calm_bind.mpr ⟨calm_foldlM hadd _ _, fun net _ => ?_⟩
  simp [Network.checkEdges, hedges]

end Listing

namespace Network

theorem calm_recordBases (net : Network) (bases : List CompId) : (net.recordBases bases).Calm := by
  have hbase : ∀ (net : Network) b, (net.recordBase b).Calm := by
    intro net b
    refine calm_bind.mpr ⟨calm_get _ _, fun k _ => ?_⟩
    split <;> simp
  refine calm_bind.mpr ⟨by simp [hbase], fun r _ => ?_⟩
  obtain ⟨transitions, net⟩ := r
  dsimp only
  split <;> simp

theorem calm_recordInit (net : Network) : net.recordInit.Calm := by
  unfold recordInit
  split
  · exact .pure _
  · exact .bind (.tell (by simp [Event.ForcedCycle])) fun _ => .pure _
  · exact .throw (not_unschedulable_structural _ _ _)

theorem calm_inputsByMove (net : Network) (inputs : List CompId) : (net.inputsByMove inputs).Calm := by
  refine calm_foldlM (fun table i => ?_) _ _
  split <;> simp

theorem calm_recordLegal (table : List (MoveKey × CompId)) (net : Network) (players : List Player)
    (l : CompId) : (recordLegal table net players l).Calm := by
  refine .bind (.lift (calm_get _ _)) fun k => ?_
  split
  · exact .pure _
  dsimp only
  split
  · refine .bind (.lift (calm_get _ _)) fun ik => ?_
    split
    · exact .throw_bind (not_unschedulable_structural _ _ _)
    · exact .pure _
  · exact .bind (.tell (by simp [Event.ForcedCycle])) fun _ => .pure _

theorem calm_record (net : Network) : net.record.Calm := by
  refine .bind (.lift (calm_recordBases _ _)) fun r => ?_
  obtain ⟨transitions, net⟩ := r
  refine .bind (.forIn (fun i _ => .bind (.lift (calm_get _ _)) fun k => ?_) _ _) fun _ => ?_
  · split
    · exact .throw_bind (not_unschedulable_structural _ _ _)
    · exact .pure _
  refine .bind (.lift (by unfold recordTerminal; split <;> simp)) fun net => ?_
  refine .bind (calm_recordInit _) fun net => ?_
  refine .bind (.lift (calm_inputsByMove _ _)) fun table => ?_
  refine .bind (.foldlM (fun s l => calm_recordLegal _ _ _ _) _ _) fun r => ?_
  exact .pure _

end Network

theorem Listing.calm_build (l : Listing) : l.build.Calm :=
  .bind (.lift l.calm_assemble) fun net => net.mapComponents Component.fitThresholds |>.calm_record

/-! ## Simplifying -/

namespace Network

section

variable (net : Network)

theorem calm_optimize (mode : Optimize.Mode) : (net.optimize mode).Calm := by
  have hpass : ∀ keep, ∀ p ∈ Optimize.passes mode keep, ∀ net, (p.run net).Calm := by
    intro keep
    cases h : mode.allPasses <;> simp [Optimize.passes, h]
  have hround : ∀ net, (Optimize.round mode net).Calm := by
    intro net
    -- what the fold keeps is about the passes still to come
    refine calmly.mono (calmly.foldlM (fun ps _ => ∀ p ∈ ps, ∀ net, (p.run net).Calm)
      (fun p ps s h => ?_) _ _ (hpass _)) fun _ _ => trivial
    refine calmly.bind (Calm.lift (h p mem_cons_self s.1)) fun r _ => ?_
    refine calmly.bind (Calm.tell (by simp [Event.ForcedCycle])) fun _ _ => ?_
    exact calmly.pure (forall_mem_cons.mp h).2
  refine .bind (.run (fun s => ?_) _ _) fun r => .pure _
  exact .bind (hround s.1) fun r => .pure _

theorem calm_foldConstant (c : CompId) (v : Bool) : (net.foldConstant c v).Calm := by
  have hlegal : ∀ s, (Constants.legalTurn s).Calm := by
    intro s
    unfold Constants.legalTurn
    split
    · exact .pure _
    refine .bind (.lift (calm_get _ _)) fun k => ?_
    split
    · exact .bind (.tell (by simp [Event.ForcedCycle])) fun _ => .pure _
    split
    · exact .pure _
    · refine .bind (.lift (calm_propagate _ _ _)) fun r => ?_
      exact .bind (.lift (calm_fold _ _ _)) fun _ => .pure _
  have hgo : ∀ net : Network, Observed.Calm (do
      let s ← Constants.fold { net, work := [] } c v
      let s ← Loop.run (net.extent + 1) Constants.legalTurn s
      return (s.net, s.folded)) := fun net =>
    .bind (.lift (calm_fold _ _ _)) fun s => .bind (.run hlegal _ _) fun s => .pure _
  refine .bind (.lift (calm_get _ _)) fun k => ?_
  refine .ite (.throw_bind (not_unschedulable_invariant _ _ _)) (.ite (.ite ?_ ?_) ?_)
  · exact .bind (.pure _) hgo
  · exact .throw_bind (not_unschedulable_invariant _ _ _)
  · exact .bind (.lift (calm_propagate _ _ _)) fun r => .bind (.pure _) hgo

theorem calm_foldListedConstants : net.foldListedConstants.Calm := by
  refine .foldlM (fun net c => ?_) _ _
  split
  · exact .pure _
  · exact .bind (calm_foldConstant _ _ _) fun r => .pure _

theorem calm_foldInit : net.foldInit.Calm := by
  unfold foldInit
  split
  · exact .pure _
  · exact .bind (calm_foldConstant _ _ _) fun r => .lift (calm_dropComponents _ _)

theorem calm_foldDanglers : net.foldDanglers.Calm := by
  refine .foldlM (fun net c => ?_) _ _
  split
  · exact .pure _
  split
  · exact .bind (calm_foldConstant _ _ _) fun r => .pure _
  · exact .pure _

theorem calm_foldUnpairedInputs : net.foldUnpairedInputs.Calm := by
  refine .bind (.mapM (fun i => ?_) _) fun marked => ?_
  · exact .bind (.lift (by simp)) fun _ => .pure _
  · refine .bind (.foldlM (fun net i => ?_) _ _) fun net => .pure _
    exact .bind (calm_foldConstant _ _ _) fun r => .lift (calm_dropComponents _ _)

theorem calm_simplify (opts : Options) : (net.simplify opts).Calm := by
  refine .bind (.lift (calm_removePassThrough _ _ _)) fun r => ?_
  refine .bind (calm_optimize _ _) fun r => ?_
  refine .bind (.lift (calm_endAtLegals _)) fun r => ?_
  refine .bind (.lift (calm_deriveInitialState _)) fun net => ?_
  refine .bind (.stage _ _) fun _ => ?_
  refine .bind (calm_foldListedConstants _) fun net => ?_
  refine .bind (calm_foldInit _) fun net => ?_
  refine .bind (calm_optimize _ _) fun r => ?_
  refine .bind (calm_foldDanglers _) fun net => ?_
  refine .bind (calm_foldUnpairedInputs _) fun net => ?_
  refine .bind (.stage _ _) fun _ => ?_
  refine .bind (.lift (by simp [removeUselessBases, isUselessBase])) fun r => ?_
  exact .bind (calm_optimize _ _) fun r => .pure _

end

end Network

end GameNet
