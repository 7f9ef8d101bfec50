import GameNet.Proofs.Compile.FanIn
import GameNet.Proofs.Layout.Levels
import GameNet.Proofs.Layout.Numbers

/-!
The last stage: everything is counted anew, gets its level, and is put in order.

`Finished` is what is known of a compiled network as such.
-/

namespace GameNet.Network

/-! ## Counting at the end -/

def Resting (net : Network) : Prop := ∀ c k, net.get? c = some k → k.inputs = [] → k.outputs ≠ [] →
  k.count ≠ unset ∧ (k.op = .and ∨ k.op = .or → k.count = 0)

section Recounted

variable {net net' : Network} {c : CompId} {k : Component} {P : Position → Prop}
  {ref : Position → CompId → Bool}

theorem Resting.rested (h : net.Resting) (hf : net.Fitted) : net.Rested := by
  intro c k hk hop hi ho
  refine ⟨(h c k hk hi ho).2 hop, fun hand => ?_⟩
  rw [(hf c k hk hand).1, hi]
  rfl

section

variable (hr : net.Recounted net.sinks net')
include hr

theorem Recounted.resting (hf : net.Formed) : net'.Resting := by
  intro c k' hk' hi ho
  have hout : net.outputsOf c ≠ [] := by
    rwa [← hr.recounts.outputsOf, outputsOf_of_get? hk']
  obtain ⟨r, hroot, hpath⟩ := exists_sink hf.balanced hf.acyclic (.inr hout)
  have hcount := hr.exact c ⟨r, hroot, hpath⟩ k' hk'
  have hzero : k'.op = .and ∨ k'.op = .or → k'.count = 0 := fun hop => by
    rw [hcount.gate hop, hi]
    rfl
  refine ⟨?_, hzero⟩
  by_cases hop : k'.op = .and ∨ k'.op = .or
  · rw [hzero hop]
    decide
  · obtain ⟨hand, hor⟩ := not_or.mp hop
    exact (hcount.held hand hor (.inl hi)).2

section

variable (hf : net.Formed) (hconst : ∀ c, net.op? c = some .constant → net.inputsOf c = [])
include hf hconst

theorem Recounted.counted (hk' : net'.get? c = some k)
    (hi : k.inputs ≠ []) : k.count = (k.inputs.countP net'.valueAt : Nat) ∧
      (k.op ≠ .and → k.op ≠ .or → k.inputs.length ≤ 1) := by
  have hin : net.inputsOf c ≠ [] := by rwa [← hr.recounts.inputsOf, inputsOf_of_get? hk']
  have hf' := hf.recounts hr.recounts
  refine counting_of_exact hf'.balanced hf'.transition hk' hi (fun hop => hin (hconst c ?_))
    (hr.exact_of_fed hf.balanced hf.acyclic hin)
  rw [← hr.recounts.op?, op?_of_get? hk', hop]

theorem Recounted.tallied : net'.Tallied :=
  fun _ _ hk hi => (hr.counted hf hconst hk hi).1

theorem Recounted.narrow : net'.Narrow := by
  intro c k hk
  by_cases hi : k.inputs = []
  · exact ⟨fun _ _ => by rw [hi]; exact Nat.zero_le 1, fun _ => hi⟩
  refine ⟨(hr.counted hf hconst hk hi).2, fun hop => ?_⟩
  have hc := hconst c (by rw [← hr.recounts.op?, op?_of_get? hk, hop])
  rwa [← hr.recounts.inputsOf, inputsOf_of_get? hk] at hc

end

theorem Recounted.countAt_of_source (hk : net.get? c = some k)
    (hi : k.inputs = []) (hand : k.op ≠ .and) (hor : k.op ≠ .or) : net'.countAt c = net.countAt c :=
  hr.held c k hk hand hor (.inl hi)

theorem Recounted.countAt_of_plain {op : Op} (hop : net.op? c = some op) (hg : op.isGate = false)
    (hi : net.inputsOf c = []) : net'.countAt c = net.countAt c := by
  obtain ⟨k, hk, rfl⟩ := Option.map_eq_some_iff.mp hop
  rw [inputsOf_of_get? hk] at hi
  exact hr.countAt_of_source hk hi (fun h => by rw [h] at hg; cases hg) (fun h => by rw [h] at hg; cases hg)

theorem Recounted.countAt_of_base (hf : net.Formed) (hb : c ∈ net.bases) : net'.countAt c = net.countAt c :=
  hr.countAt_of_plain (op?_of_isRole (hf.base c hb).1) rfl (hf.base c hb).2

theorem Recounted.seeded (hf : net.Formed) (hs : net.Seeded) : net'.Seeded := by
  have hrole : ∀ c role, net'.isRole c role = net.isRole c role := fun c role =>
    isRole_of_kind? (hr.recounts.kind? c) role
  refine ⟨fun b hb => ?_, fun i hi => ?_, fun c hop hi => ?_⟩
  · rw [field_of_parts Network.bases hr.recounts.parts] at hb
    rw [hr.countAt_of_base hf hb]
    exact hs.base b hb
  · rw [hrole] at hi
    rw [hr.countAt_of_plain (op?_of_isRole hi) rfl (hf.input i hi)]
    exact hs.input i hi
  · rw [hr.recounts.op?] at hop
    rw [hr.recounts.inputsOf] at hi
    rw [hr.countAt_of_plain hop rfl hi]
    exact hs.constant c hop hi

theorem Recounted.unlit (hf : net.Formed) (hu : net.Unlit) : net'.Unlit := by
  intro b hb
  rw [field_of_parts Network.bases hr.recounts.parts] at hb
  rw [hr.countAt_of_base hf hb]
  exact hu b hb

theorem Recounted.ended (he : net.Ended) : net'.Ended := by
  intro l hl
  rw [field_of_parts Network.legals hr.recounts.parts] at hl
  rw [hr.recounts.outputsOf]
  exact he l hl

end

theorem Tallied.coherent (h : net.Tallied) (hs : net.Standard) : net.Coherent :=
  ⟨net.valueAt, h.obeys hs, fun _ _ => rfl⟩

theorem Recounted.answers (hr : net.Recounted net.sinks net') (hf : net.Formed) (hfit : net.Fitted)
    (ht : net'.Tallied) (ha : net.Answers P ref) : net'.Answers P ref := by
  have hf' := hf.recounts hr.recounts
  have hfit' := hfit.recounts hr.recounts
  refine ha.recounts hr.recounts (ht.coherent (hf'.standard hfit'))
    ((hr.resting hf).rested hfit') fun c hc hi => hr.recounts.valueAt_eq ?_
  obtain ⟨k, hk⟩ := contains_iff.mp hc.contains
  have hnil := (inputsOf_of_get? hk).symm.trans hi
  by_cases hop : k.op = .and ∨ k.op = .or
  · -- a gate that tells something is read, and counts nothing before and after
    have hgate : k.isGate := by rcases hop with hop | hop <;> rw [Component.isGate, hop] <;> rfl
    have hout : k.outputs ≠ [] := by
      rcases hc with ⟨op, hop', hg⟩ | ⟨-, -, ho⟩
      · rw [op?_of_get? hk] at hop'
        obtain rfl := Option.some.inj hop'
        rw [Component.isGate] at hgate
        rw [hg] at hgate
        cases hgate
      · rwa [outputsOf_of_get? hk] at ho
    obtain ⟨n, hk'⟩ := hr.recounts.get? hk
    rw [countAt_of_get? hk', countAt_of_get? hk, (ha.rested c k hk hop hnil hout).1]
    exact (hr.resting hf c _ hk' hnil hout).2 hop
  · obtain ⟨hand, hor⟩ := not_or.mp hop
    exact hr.countAt_of_source hk hnil hand hor

end Recounted

/-! ## Finished networks -/

structure Finished (net : Network) : Prop extends Trimming net where
  fitted : net.Fitted
  tallied : net.Tallied
  resting : net.Resting

section Finished

variable {net net' : Network} {f : CompId → CompId}

theorem Renames.resting (h : Renames f net net') (hr : net.Resting) : net'.Resting := by
  intro d k' hk' hi ho
  obtain ⟨c, k, level, hk, -, rfl⟩ := h.exists_old hk'
  have hop : Component.op { k.rename f with level } = k.op := k.op_rename f
  rw [hop]
  change k.inputs.map f = [] at hi
  change k.outputs.map f ≠ [] at ho
  rw [Ne, List.map_eq_nil_iff] at ho
  exact hr c k hk (List.map_eq_nil_iff.mp hi) ho

theorem Renames.finished (h : Renames f net net') (hf : net.Finished) : net'.Finished where
  formed := h.formed hf.formed
  seeded := h.seeded hf.seeded
  ended := h.ended hf.ended
  narrow := h.narrow hf.narrow
  fitted := h.fitted hf.fitted
  tallied := h.tallied hf.tallied
  resting := h.resting hf.resting

theorem Finished.standard (h : net.Finished) : net.Standard := h.formed.standard h.fitted

theorem Finished.primed (h : net.Finished) : net.Primed where
  balanced := h.formed.balanced
  acyclic := h.formed.acyclic
  standard := h.standard
  tallied := h.tallied
  bases_nodup := h.formed.bases_nodup
  base b hb := by
    obtain ⟨hrole, hi⟩ := h.formed.base b hb
    obtain ⟨k, hk⟩ := contains_iff.mp (contains_of_isRole hrole)
    have hcount := h.seeded.base b hb
    rw [countAt_of_get? hk] at hcount
    rw [isRole_of_get? hk] at hrole
    rw [inputsOf_of_get? hk] at hi
    exact ⟨k, hk, hrole, hi, hcount⟩
  input c k hk hrole := by
    have hc : net.isRole c .input := (isRole_of_get? hk).trans hrole
    have hi := h.formed.input c hc
    have hcount := h.seeded.input c hc
    rw [inputsOf_of_get? hk] at hi
    rw [countAt_of_get? hk] at hcount
    exact ⟨hi, hcount⟩
  paired l i hl := by
    have hi := h.formed.inputs i (h.formed.paired l i hl).2.1
    obtain ⟨k, hk⟩ := contains_iff.mp (contains_of_isRole hi)
    exact ⟨k, hk, (isRole_of_get? hk).symm.trans hi⟩
  transition t ht := contains_of_op? (h.formed.op?_of_transition ht)

theorem Undriven.constant (hu : net.Undriven) {c : CompId} (hop : net.op? c = some .constant) :
    net.inputsOf c = [] := hu c (mem_sources.mpr (.inr (.inr (.inr hop))))

theorem Recounts.undriven (hr : Recounts net net') (hu : net'.Undriven) : net.Undriven := by
  intro c hc
  rw [← hr.inputsOf]
  refine hu c (mem_sources.mpr ?_)
  rw [field_of_parts Network.bases hr.parts, field_of_parts Network.inputs hr.parts,
    field_of_parts Network.init hr.parts, hr.op?]
  exact mem_sources.mp hc

theorem Recounted.finished (hr : net.Recounted net.sinks net') (hf : net.Formed) (hfit : net.Fitted)
    (hs : net.Seeded) (he : net.Ended) (hu : net'.Undriven) : net'.Finished := by
  have hconst : ∀ c, net.op? c = some .constant → net.inputsOf c = [] := fun _ =>
    (hr.recounts.undriven hu).constant
  exact
    { formed := hf.recounts hr.recounts
      seeded := hr.seeded hf hs
      ended := hr.ended he
      narrow := hr.narrow hf hconst
      fitted := hfit.recounts hr.recounts
      tallied := hr.tallied hf hconst
      resting := hr.resting hf }

end Finished

/-! ## Finishing -/

section Finish

variable {net : Network}

structure Finishing (net : Network) (cap : Nat) (net' : Network) : Prop where
  finished : net'.Finished
  aligned : net'.Aligned
  grounded : net.Grounded → net'.Grounded
  unlit : net.Unlit → net'.Unlit
  fanIn : 0 < cap → ∀ c, (net'.inputsOf c).length ≤ max cap 2
  undriven : cap = 0 → net.Undriven
  same : ∃ capped counted f, Later net capped ∧ Recounts capped counted ∧ counted.Finished ∧
    counted.Undriven ∧ (∀ P ref, capped.Answers P ref → counted.Answers P ref) ∧
    Renames f counted net'

theorem Sound.grounded {keep : CompId → Prop} {net' : Network} (h : Sound keep net net')
    (hg : net.Grounded) : net'.Grounded := by
  intro c k' hk' hgate hi
  have hi' : net'.inputsOf c = [] := (inputsOf_of_get? hk').trans hi
  obtain ⟨hc, hnil⟩ := h.source (contains_of_get? hk') hi'
  obtain ⟨k, hk⟩ := contains_iff.mp hc
  have hop := h.op? hc (contains_of_get? hk')
  rw [op?_of_get? hk, op?_of_get? hk'] at hop
  rw [Component.isGate, Option.some.inj hop] at hgate
  rw [inputsOf_of_get? hk] at hnil
  exact hg c k hk hgate hnil

structure Capped (net : Network) (cap : Nat) (capped : Network) : Prop where
  later : Later net capped
  formed : capped.Formed
  fitted : capped.Fitted
  seeded : capped.Seeded
  ended : capped.Ended
  grounded : net.Grounded → capped.Grounded
  unlit : net.Unlit → capped.Unlit
  supplied : net.Supplied → capped.Supplied
  fanIn : 0 < cap → ∀ c, (capped.inputsOf c).length ≤ max cap 2
  uncapped : cap = 0 → capped = net

theorem Trimming.capFanIn (h : Trimming net) (hfit : net.Fitted) {cap : Nat} (hcap : 0 < cap) :
    (net.capFanIn cap).Ensures fun r => Capped net cap r.1 := by
  refine (capFanIn_ensures h.formed.balanced h.formed.acyclic cap).mono fun r hr => ?_
  obtain ⟨hs, hfit', hlen⟩ := hr
  obtain ⟨htrim, hlater⟩ := h.sound hs fun _ _ => trivial
  exact ⟨hlater, htrim.formed, hfit' hfit, htrim.seeded, htrim.ended, hs.grounded,
    hlater.unlit h.formed, hs.supplied, fun _ => hlen, fun h0 => absurd h0 hcap.ne'⟩

theorem Capped.nothing (hf : net.Formed) (hfit : net.Fitted) (hs : net.Seeded) (he : net.Ended)
    {cap : Nat} (hcap : cap = 0) : Capped net cap net :=
  ⟨.refl net, hf, hfit, hs, he, id, id, id, fun h => absurd h (hcap ▸ Nat.lt_irrefl 0), fun _ => rfl⟩

def arrange (net : Network) (opts : Options) (cap : Nat) : Observed Network := do
  let net ← net.recount net.sinks false
  let net ← net.schedule
  net.verify opts.verify cap
  let net ← net.reorderBases
  let net ← net.reorderLegals
  let net ← net.reorderComponents
  net.verify opts.verify cap
  Observed.stage "compiled" net
  return net

theorem finish_eq (net : Network) (opts : Options) (cap : Nat) : net.finish opts cap = (do
    let net ← if 0 < cap then do pure (← net.capFanIn cap).1 else pure net
    net.arrange opts cap) := rfl

theorem Capped.arrange_ensures {cap : Nat} {capped : Network} (h : Capped net cap capped)
    (opts : Options) : (capped.arrange opts cap).Ensures (Finishing net cap) := by
  refine Observed.Ensures.bind (.lift (recount_ensures h.formed.acyclic _ false)) fun counted hr => ?_
  refine Observed.Ensures.bind (schedule_ensures counted) fun leveled hl => ?_
  obtain ⟨hlevel, hu⟩ := hl
  have hfin := hr.finished h.formed h.fitted h.seeded h.ended hu
  refine Observed.Ensures.bind .trivial fun _ _ => ?_
  refine Observed.Ensures.bind (.lift (reorderBases_ensures leveled)) fun net₁ h₁ => ?_
  have hre₁ := hlevel.renames.trans h₁
  have hcast := hre₁.cast hfin.formed.toCast
  refine Observed.Ensures.bind (.lift (reorderLegals_ensures hcast)) fun net₂ h₂ => ?_
  refine Observed.Ensures.bind (.lift (reorderComponents_ensures net₂)) fun net₃ h₃ => ?_
  obtain ⟨f, h₃, haligned⟩ := h₃
  have hre := (hre₁.trans h₂.1).trans h₃
  refine Observed.Ensures.bind .trivial fun _ _ => ?_
  refine Observed.Ensures.bind .trivial fun _ _ => .pure ?_
  exact
    { finished := hre.finished hfin
      aligned := haligned h₂.2
      grounded := fun hg => hre.grounded fun c k hk hgate => by
        obtain ⟨n, hold⟩ := hr.recounts.symm.get? hk
        exact h.grounded hg c (k.counting n) hold hgate
      unlit := fun hu => hre.unlit (hr.unlit h.formed (h.unlit hu))
      fanIn := fun hcap => hre.fanIn fun c => by
        rw [hr.recounts.inputsOf]
        exact h.fanIn hcap c
      undriven := fun hcap => by
        rw [← h.uncapped hcap]
        exact hr.recounts.undriven hu
      same := ⟨capped, counted, _, h.later, hr.recounts, hfin, hu,
        fun P ref => hr.answers h.formed h.fitted hfin.tallied, hre⟩ }

theorem finish_ensures (hf : net.Formed) (hfit : net.Fitted) (hs : net.Seeded) (he : net.Ended)
    (opts : Options) {cap : Nat} (ht : 0 < cap → Trimming net) :
    (net.finish opts cap).Ensures (Finishing net cap) := by
  rw [finish_eq]
  split
  · next hcap =>
    refine Observed.Ensures.bind (.lift ((ht hcap).capFanIn hfit hcap)) fun r hr => ?_
    exact Observed.Ensures.bind (.pure hr) fun capped hc => hc.arrange_ensures opts
  · next hcap =>
    refine Observed.Ensures.bind (P := Capped net cap) (.pure ?_) fun capped hc => hc.arrange_ensures opts
    exact .nothing hf hfit hs he (Nat.eq_zero_of_not_pos hcap)

end Finish

end GameNet.Network
