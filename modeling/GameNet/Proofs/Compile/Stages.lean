import GameNet.Proofs.Compile.Finish
import GameNet.Proofs.Compile.Start

/-!
The compiler from end to end: what is known of a compiled network, and through which networks it came
about.
-/

namespace GameNet

namespace Network

section Stages

variable {keep keep' : CompId → Prop} {net net' : Network} {last : Network} {lead derived : Network}
  {init : CompId}

theorem Sound.weaken (h : Sound keep net net')
    (hk : ∀ c, keep' c → net.contains c → keep c) : Sound keep' net net' where
  toRefines := h.toRefines
  balanced := h.balanced
  acyclic := h.acyclic
  keeps c hc hlive := h.keeps c (hk c hc hlive) hlive

/-- The network of which the initial state is derived: nothing that matters is gone, and nothing reads a
legal. -/
structure Led (net lead : Network) : Prop where
  sound : Sound (· ∈ net.protectedIds true) net lead
  fitted : lead.Fitted
  ended : lead.Ended

theorem Led.formed {lead : Network} (h : Led net lead) (hf : net.Formed) : lead.Formed :=
  hf.sound h.sound fun _ hc => hc

theorem Sound.endAtLegals (hs : Sound (· ∈ net.protectedIds true) net net') (hf : net.Formed)
    (hfit : net'.Fitted) : net'.endAtLegals.Ensures fun r => Led net r.1 := by
  refine (hf.sound hs fun _ hc => hc).endAtLegals.mono fun r hr => ?_
  obtain ⟨hs', hfit', hend⟩ := hr
  exact ⟨hs.trans (hs'.weaken fun _ _ _ => trivial), hfit' hfit, hend⟩

theorem Formed.optimizeKeeping (h : net.Formed) (mode : Optimize.Mode) : (net.optimize mode).Yields fun r =>
      Sound (· ∈ net.protectedIds true) net r.1 ∧ r.1.Formed ∧ r.1.Fitted :=
  (h.optimize mode).mono fun _ hr =>
    ⟨hr.1.weaken fun _ hc hlive => mem_anchors.mpr ⟨hlive, .inl hc⟩, hr.2⟩

theorem Formed.removePassThrough (h : net.Formed) :
    (net.removePassThrough [.proposition] (net.protectedIds true)).Yields fun r =>
      Sound (· ∈ net.protectedIds true) net r.1 ∧ r.1.Formed := by
  refine (removePassThrough_yields (by decide) (fun c hc => ?_) h.balanced h.acyclic
    h.partsPlayed.solid).mono fun r hr => ?_
  · rcases (mem_anchors.mp hc).2 with hc | hop
    · exact .inl hc
    · exact .inr ⟨_, hop, by decide⟩
  · have hs : Sound (· ∈ net.protectedIds true) net r.1 :=
      hr.1.toSound.weaken fun _ hc hlive => mem_anchors.mpr ⟨hlive, .inl hc⟩
    exact ⟨hs, h.sound hs fun _ hc => hc⟩

def Lineage (net last : Network) : Prop :=
  ∃ lead init derived, Led net lead ∧ Derived lead init derived ∧
    (∀ c, derived.op? c = some .constant → derived.inputsOf c = []) ∧ Later derived last

theorem Lineage.later {last last' : Network} (h : Lineage net last) (hl : Later last last') :
    Lineage net last' := by
  obtain ⟨lead, init, derived, hled, hd, hconst, hlater⟩ := h
  exact ⟨lead, init, derived, hled, hd, hconst, hlater.trans hl⟩

section

variable (h : Lineage net last)
include h

theorem Lineage.kind? {c : CompId} {kind : Kind}
    (hk : last.kind? c = some kind) (hg : kind.op.isGate = false) : net.kind? c = some kind := by
  obtain ⟨lead, init, derived, hled, hd, -, hlater⟩ := h
  have hderived := hlater.keeps.kind?_of_plain hk hg
  have hlead : lead.kind? c = some kind := (hd.recounts.kind? c).symm.trans hderived
  exact hled.sound.keepsAll.kind?_of_plain hlead hg

theorem Lineage.proposition? {c : CompId} {p : Proposition}
    (hp : last.proposition? c = some p) : net.proposition? c = some p := by
  have hkind := kind?_of_proposition? hp
  exact (proposition?_of_kind? ((h.kind? hkind rfl).trans hkind.symm)).trans hp

theorem Lineage.players : last.players = net.players := by
  obtain ⟨lead, init, derived, hled, hd, -, hlater⟩ := h
  rw [hlater.players, hd.field Network.players, field_of_parts Network.players hled.sound.parts]

theorem Lineage.terminal : last.terminal = net.terminal := by
  obtain ⟨lead, init, derived, hled, hd, -, hlater⟩ := h
  rw [hlater.terminal, hd.field Network.terminal, field_of_parts Network.terminal hled.sound.parts]

end

theorem Derived.supplied (h : Derived lead init derived) (hs : lead.Supplied) : derived.Supplied := by
  refine hs.of_heads (fun c hc => ?_) (fun c k' hk' _ => ?_) (fun b hb _ => ?_) (fun i hi _ => ?_)
    (fun i hi _ => ?_) (h.field Network.legals)
  · rw [IsHead, h.recounts.inputsOf, h.recounts.outputsOf] at hc
    exact hc
  · obtain ⟨n, hk⟩ := h.recounts.symm.get? hk'
    exact ⟨_, hk, rfl⟩
  · rwa [h.field Network.bases]
  · rwa [h.field Network.inputs]
  · rwa [h.field Network.init]

section

variable (h : Derived lead init derived) (hf : lead.Formed) (he : lead.Ended)
include h hf he

theorem Derived.trimming (hconst : ∀ c, derived.op? c = some .constant → derived.inputsOf c = []) :
    Trimming derived where
  formed := h.formed hf
  seeded := h.seeded hf
  ended := h.ended he
  narrow c k hk := by
    have hcap : Recounts lead { derived with initialState := lead.initialState } :=
      h.recounts.withState lead.initialState
    obtain ⟨n, hold⟩ := hcap.symm.get? hk
    refine ⟨fun hand hor => ?_, fun hop => ?_⟩
    · by_cases hop : k.op = .constant
      · have hi := hconst c (by rw [op?_of_get? hk, hop])
        rw [inputsOf_of_get? hk] at hi
        rw [hi]
        exact Nat.zero_le 1
      · exact h.narrow c (k.counting n) hold hand hor hop
    · have hi := hconst c (by rw [op?_of_get? hk, hop])
      rwa [inputsOf_of_get? hk] at hi

theorem Derived.trim (opts : Options) :
    (do
      let net ← derived.foldListedConstants
      let net ← net.foldInit
      let (net, _) ← net.optimize { once := true }
      let net ← net.foldDanglers
      let net ← net.foldUnpairedInputs
      Observed.stage "constants" net
      let (net, _) ← (net.removeUselessBases : Checked _)
      let (net, _) ← net.optimize { allPasses := opts.level = .full }
      return net : Observed Network).Ensures fun last =>
        ((∀ c, derived.op? c = some .constant → derived.inputsOf c = []) ∧ Later derived last) ∧
          Trimming last ∧ last.Fitted ∧ last.Grounded ∧ last.init = none ∧
          (derived.Supplied → last.Supplied) := by
  by_cases hconst : ∀ c, derived.op? c = some .constant → derived.inputsOf c = []
  swap
  · exact .bind (foldListedConstants_undriven derived) fun _ hu => absurd hu hconst
  have ht := h.trimming hf he hconst
  refine .bind ht.foldListedConstants fun net₁ h₁ => ?_
  obtain ⟨ht₁, hl₁, hparts₁⟩ := h₁
  refine .bind (ht₁.foldInit fun i hi => ?_) fun net₂ h₂ => ?_
  · have hi₀ : derived.init = some i := (field_of_parts Network.init hparts₁).symm.trans hi
    obtain rfl : i = init := Option.some.inj ((hi₀.symm.trans (h.field Network.init)).trans h.named)
    have hrole := ht.formed.init i hi₀
    rw [hl₁.keeps.countAt (op?_of_isRole hrole) rfl (contains_of_isRole (ht₁.formed.init i hi))]
    exact h.off
  obtain ⟨ht₂, hl₂, hi₂, hsup₂⟩ := h₂
  refine .bind (ht₂.formed.optimizeKeeping _).ensures fun r₃ h₃ => ?_
  obtain ⟨ht₃, hl₃⟩ := ht₂.sound h₃.1 fun _ hc => hc
  have hi₃ : r₃.1.init = none := (field_of_parts Network.init h₃.1.parts).trans hi₂
  refine .bind ht₃.foldDanglers fun net₄ h₄ => ?_
  obtain ⟨ht₄, hl₄, hparts₄, hg₄⟩ := h₄
  have hi₄ : net₄.init = none := (field_of_parts Network.init hparts₄).trans hi₃
  refine .bind ht₄.foldUnpairedInputs fun net₅ h₅ => ?_
  obtain ⟨ht₅, hl₅, hi₅, hg₅, hsup₅⟩ := h₅
  refine .bind .trivial fun _ _ => ?_
  refine .bind (.lift ht₅.removeUselessBases) fun r₆ h₆ => ?_
  obtain ⟨ht₆, hl₆, hi₆, hg₆, hsup₆⟩ := h₆
  refine .bind (ht₆.formed.optimizeKeeping _).ensures fun r₇ h₇ => .pure ?_
  obtain ⟨ht₇, hl₇⟩ := ht₆.sound h₇.1 fun _ hc => hc
  refine ⟨⟨hconst, (((((hl₁.trans hl₂).trans hl₃).trans hl₄).trans hl₅).trans hl₆).trans hl₇⟩, ht₇, h₇.2.2,
    h₇.1.grounded (hg₆ (hg₅ hg₄)), ?_, fun hs => ?_⟩
  · rw [field_of_parts Network.init h₇.1.parts, hi₆, hi₅, hi₄]
  · have hs₃ := h₃.1.supplied (hsup₂ (hl₁.supplied_of_parts hparts₁ hs))
    exact h₇.1.supplied (hsup₆ (hsup₅ (hl₄.supplied_of_parts hparts₄ hs₃)))

end

theorem Formed.simplify (h : net.Formed) (opts : Options) :
    (net.simplify opts).Ensures fun last => Lineage net last ∧ Trimming last ∧ last.Fitted ∧
      last.Grounded ∧ last.init = none ∧ (net.Supplied → last.Supplied) := by
  unfold Network.simplify
  refine .bind (.lift h.removePassThrough.ensures) fun r₁ h₁ => ?_
  obtain ⟨hs₁, hf₁⟩ := h₁
  refine .bind (hf₁.optimizeKeeping _).ensures fun r₂ h₂ => ?_
  obtain ⟨hs₂, -, hfit₂⟩ := h₂
  rw [protectedIds_of_parts hs₁.parts] at hs₂
  refine .bind (.lift ((hs₁.trans hs₂).endAtLegals h hfit₂)) fun r₃ hled => ?_
  have hf₃ := hled.formed h
  refine .bind (.lift (deriveInitialState_ensures hf₃)) fun derived hd => ?_
  obtain ⟨init, hd⟩ := hd
  refine .bind .trivial fun _ _ => ?_
  refine (hd.trim hf₃ hled.ended opts).mono fun last hlast => ?_
  obtain ⟨hl, ht, hfit, hg, hi, hsup⟩ := hlast
  exact ⟨⟨r₃.1, init, derived, hled, hd, hl⟩, ht, hfit, hg, hi, fun hs =>
    hsup (hd.supplied (hled.sound.supplied hs))⟩

end Stages

end Network

/-! ## Compiling -/

namespace Listing

open Network

structure Compiled (l : Listing) (opts : Options) (cut last net : Network) : Prop where
  built : ∃ flat pairs built, Built l flat pairs built ∧ Severed built pairs cut
  formed : cut.Formed
  lineage : Lineage cut last
  finishing : Finishing last (if opts.level = .raw then 0 else opts.maxFanIn) net
  simplified : opts.level ≠ .raw → last.Grounded ∧ last.init = none
  undriven : opts.level = .raw → ∀ i, cut.init = some i → cut.inputsOf i = []

theorem compile_ensures (l : Listing) (hb : l.Balanced) (ha : l.Acyclic) (opts : Options) :
    (l.compile opts).Ensures fun net => ∃ cut last, Compiled l opts cut last net := by
  unfold compile
  refine .bind (build_ensures l) fun built hbuilt => ?_
  obtain ⟨flat, pairs, hbuilt⟩ := hbuilt
  refine .bind .trivial fun _ _ => ?_
  refine .bind (.lift hbuilt.cut_ensures) fun cut hcut => ?_
  obtain ⟨hf, hfit⟩ := hbuilt.formed hcut hb ha
  split
  · next hraw =>
    refine .bind (.lift ((Sound.refl hf.balanced hf.acyclic).endAtLegals hf hfit)) fun r hled => ?_
    have hf₁ := hled.formed hf
    refine .bind (.lift (deriveInitialState_ensures hf₁)) fun derived hd => ?_
    obtain ⟨init, hd⟩ := hd
    refine (finish_ensures (hd.formed hf₁) (hd.fitted hled.fitted) (hd.seeded hf₁) (hd.ended hled.ended)
      opts fun h => absurd h (Nat.lt_irrefl 0)).mono fun net hfin => ⟨cut, derived, ?_⟩
    have hundriven := hfin.undriven rfl
    refine ⟨⟨flat, pairs, built, hbuilt, hcut⟩, hf, ⟨r.1, init, derived, hled, hd,
      fun _ => hundriven.constant, .refl derived⟩, by rw [if_pos hraw]; exact hfin,
      fun h => absurd hraw h, fun _ i hi => ?_⟩
    have hlead : r.1.init = some i := (field_of_parts Network.init hled.sound.parts).trans hi
    refine (hled.sound.source (contains_of_isRole (hf₁.init i hlead)) ?_).2
    exact (hd.recounts.inputsOf i).symm.trans
      (hundriven i (mem_sources.mpr (.inr (.inr (.inl ((hd.field Network.init).trans hlead))))))
  · next hraw =>
    refine .bind (hf.simplify opts) fun last hlast => ?_
    obtain ⟨hline, htrim, hfit', hg, hinit, -⟩ := hlast
    refine (finish_ensures htrim.formed hfit' htrim.seeded htrim.ended opts fun _ => htrim).mono
      fun net hfin => ⟨cut, last, ?_⟩
    exact ⟨⟨flat, pairs, built, hbuilt, hcut⟩, hf, hline, by rw [if_neg hraw]; exact hfin,
      fun _ => ⟨hg, hinit⟩, fun h => absurd h hraw⟩

end Listing

end GameNet
