import GameNet.Proofs.Simplify.Mass
import GameNet.Simplify.DeadEnds

/-!
Removing dead ends. Afterwards every component leads to one that is kept.
-/

namespace GameNet

open List

namespace Network

def Anchors (kept keep : List CompId) (net : Network) : Prop :=
  ∀ c, c ∈ keep ↔ c ∈ kept ∨ net.op? c = some .constant

theorem Sound.anchors {kept keep : List CompId} {net net' : Network}
    (h : Sound (· ∈ keep) net net') (hk : Anchors kept keep net) : Anchors kept keep net' := by
  intro c
  rw [hk c]
  refine or_congr_right ⟨fun hop => ?_, fun hop => ?_⟩
  · have hc := contains_of_op? hop
    rw [h.op? hc (h.keeps c ((hk c).mpr (.inr hop)) hc), hop]
  have hc' := contains_of_op? hop
  by_cases hc : net.contains c
  · rw [← h.op? hc hc', hop]
  · rw [Bool.not_eq_true] at hc
    rcases (h.fresh c hc' hc).2.1 with hop' | hop' <;> rw [hop] at hop' <;> cases hop'

def dropped (net : Network) (c a b : CompId) : Nat := if b = c then 0 else net.edgesIn a b

section Drop

variable {net net' : Network} {c : CompId} {keep : List CompId}

theorem dropped_progress (e : Edit (· = c) (fun _ => False) (net.dropped c) net net')
    (hb : net.Balanced) (ha : net.Acyclic) (hs : Solid keep net) (hc : net.contains c)
    (hkeep : c ∉ keep) : Progress keep 1 net net' := by
  obtain ⟨rank, hrank, -⟩ := ha.exists_rank hb
  have hsame : ∀ a b, b ≠ c → net.dropped c a b = net.edgesIn a b := fun a b hbc => if_neg hbc
  have hsound : Sound (· ∈ keep) net net' := by
    refine e.sound (fun d hd hdc => hkeep (hdc ▸ hd)) rank ?_ (fun _ h => h.elim) ?_ ?_ ?_ ?_ ?_
    · intro a b hab
      refine hrank a b (edgesIn_pos.mp ?_)
      grind [dropped]
    · intro b hbc hi a
      rw [hsame a b hbc, edgesIn, hi]
      rfl
    · intro b hbc hi
      obtain ⟨a, hab⟩ := exists_mem_of_ne_nil _ hi
      exact ⟨a, by rw [hsame a b hbc]; exact edgesIn_pos.mpr hab⟩
    · intro b op hbc _ _ _ hl a a'
      rw [length_inputsOf_le_one hb.wired] at hl
      rw [hsame a b hbc, hsame a' b hbc]
      exact hl a a'
    · intro v _ b op hbc _ _ inputs hi
      refine op.read_of_mem_iff v fun a => ?_
      rw [hi, hsame a b hbc, edgesIn_pos]
    · intro a hun b
      rw [dropped, hun.edgesIn hb b, ite_self]
  refine e.progress hsound (fun d hd => hs.contains hd)
    (e.majorizes hb ha (fun a => [a]) (fun a => ?_) fun b hbc a => ?_) (fun _ _ => Nat.le_refl _) rfl hc
  · rw [tally_cons, tally_nil]
    omega
  · rw [flatMap_singleton', hsame a b hbc]
    exact Nat.le_refl _

end Drop

end Network

namespace DeadEnds

open Network

def Suspected (kept : List CompId) (net : Network) (suspects : List CompId) : Prop :=
  ∀ c, net.contains c = true → net.outputsOf c = [] →
    c ∈ kept ∨ net.op? c = some .constant ∨ c ∈ suspects

structure Invariant (kept keep : List CompId) (net : Network) (s : State) : Prop where
  progress : Progress keep s.removed net s.net
  suspected : Suspected kept s.net s.suspects

def workLeft (s : State) : Nat :=
  s.suspects.length + s.net.total fun k => k.inputs.length + 1

theorem release_eq {net : Network} {c i : CompId} {k : Component} (hk : net.get? i = some k)
    (suspects : List CompId) : release c (net, suspects) i =
      (net.modify i fun k => { k with outputs := k.outputs.erase c },
       if k.outputs.erase c = [] then i :: suspects else suspects) := by
  have hm : (net.modify i fun k' => { k' with outputs := k.outputs.erase c }) =
      net.modify i fun k => { k with outputs := k.outputs.erase c } :=
    modify_congr fun k' hk' => by
      rw [hk] at hk'
      cases hk'
      rfl
  simp only [release, hk, hm, List.isEmpty_iff]

structure Released (net : Network) (c : CompId) (k : Component) (suspects : List CompId)
    (rest : List CompId) (s : Network × List CompId) : Prop where
  rest_mem : ∀ a ∈ rest, a ∈ k.inputs
  rewires : Rewires (fun _ => False) (net.remove c) s.1
  wired : Wired s.1 (net.dropped c)
    fun a b => if a = c then 0 else if b = c then rest.count a else net.edgesIn a b
  old : ∀ d ∈ suspects, d ∈ s.2
  new : ∀ d ∈ k.inputs, d ∉ rest → s.1.outputsOf d = [] → d ∈ s.2
  length : s.2.length + rest.length ≤ suspects.length + k.inputs.length
  total : (s.1.total fun k => k.inputs.length + 1) =
    (net.remove c).total fun k => k.inputs.length + 1

section Release

variable {net : Network} {c : CompId} {k : Component} {suspects : List CompId}
  {s : Network × List CompId}

section

variable (hb : net.Balanced) (hk : net.get? c = some k)
include hb hk

theorem Released.start : Released net c k suspects k.inputs (net.remove c, suspects) where
  rest_mem _ h := h
  rewires := .refl _ _
  wired := by
    refine (hb.wired.remove c).congr (fun _ _ => rfl) fun a b => ?_
    have hin : net.edgesIn a c = k.inputs.count a := by rw [edgesIn, inputsOf_of_get? hk]
    grind
  old _ h := h
  new _ h hn := absurd h hn
  length := Nat.le_refl _
  total := rfl

theorem Released.step (ho : k.outputs = []) {i : CompId} {rest : List CompId} {s : Network × List CompId}
    (h : Released net c k suspects (i :: rest) s) : Released net c k suspects rest (release c s i) := by
  obtain ⟨net', susp⟩ := s
  have hi : i ∈ net.inputsOf c := by
    rw [inputsOf_of_get? hk]
    exact h.rest_mem i mem_cons_self
  have hic : i ≠ c := by
    rintro rfl
    have := hb.mem_iff.mpr hi
    rw [outputsOf_of_get? hk, ho] at this
    cases this
  have hlive : net'.contains i := by
    rw [h.rewires.contains, Network.contains, get?_remove, if_neg hic]
    exact hb.contains_source hi
  obtain ⟨ki, hki⟩ := contains_iff.mp hlive
  rw [release_eq hki]
  have houts : ∀ d,
      (net'.modify i fun k => { k with outputs := k.outputs.erase c }).outputsOf d =
        if d = i then (net'.outputsOf d).erase c else net'.outputsOf d := fun d =>
    outputsOf_modify net' i d _ (List.erase · c) (fun _ => rfl) hlive
  have hmono : ∀ d ∈ susp, d ∈ if ki.outputs.erase c = [] then i :: susp else susp := by
    intro d hd
    split
    · exact mem_cons_of_mem _ hd
    · exact hd
  refine ⟨fun a ha => h.rest_mem a (mem_cons_of_mem _ ha),
    h.rewires.trans (rewires_modify _ net' i), ?_, fun d hd => hmono d (h.old d hd), ?_, ?_, ?_⟩
  · refine (h.wired.eraseOutput i c).congr (fun _ _ => rfl) fun a b => ?_
    grind [arrow]
  · intro d hd hnr he
    simp only [houts] at he
    by_cases hdi : d = i
    · rw [if_pos hdi, hdi, outputsOf_of_get? hki] at he
      simp [he, hdi]
    · rw [if_neg hdi] at he
      exact hmono d (h.new d hd (by simp [hdi, hnr]) he)
  · have hl := h.length
    rw [length_cons] at hl
    simp only at hl ⊢
    split
    · rw [length_cons]
      omega
    · omega
  · rw [← h.total]
    exact total_modify_of_eq net' i fun _ => rfl

theorem release_fold (ho : k.outputs = []) (suspects : List CompId) :
    Released net c k suspects [] (k.inputs.foldl (release c) (net.remove c, suspects)) :=
  foldl_keeps (Released net c k suspects) (fun _ _ _ h => h.step hb hk ho) k.inputs _
    (.start hb hk)

end

section

variable (h : Released net c k suspects [] s) (hb : net.Balanced) (hk : net.get? c = some k)
  (ho : k.outputs = [])
include h hb hk ho

theorem Released.edit : Edit (· = c) (fun _ => False) (net.dropped c) net s.1 := by
  refine h.rewires.edit_of_remove (h.wired.congr (fun _ _ => rfl) fun a b => ?_)
  have hout : net.edgesIn c b = 0 := by
    rw [← hb c b, edgesOut, outputsOf_of_get? hk, ho]
    rfl
  grind [dropped]

theorem Released.outputsOf_eq_nil {d : CompId}
    (hd : d ∉ k.inputs) (he : s.1.outputsOf d = []) : net.outputsOf d = [] := by
  refine eq_nil_iff_forall_not_mem.mpr fun b hdb => ?_
  have hpos : 0 < net.edgesIn d b := edgesIn_pos.mpr (hb.mem_iff.mp hdb)
  have hbc : b ≠ c := by
    rintro rfl
    rw [edgesIn_pos, inputsOf_of_get? hk] at hpos
    exact hd hpos
  have hout := (h.edit hb hk ho).wired.mem_outputsOf (a := d) (b := b)
  rw [he, dropped, if_neg hbc] at hout
  exact absurd (hout.mpr hpos) not_mem_nil

end

theorem Released.workLeft_lt (h : Released net c k suspects [] s) (hk : net.get? c = some k)
    (removed : Nat) : workLeft ⟨s.1, s.2, removed + 1⟩ < workLeft ⟨net, c :: suspects, removed⟩ := by
  have hl := h.length
  have ht := h.total
  have ht' := total_remove (w := fun k => k.inputs.length + 1) hk
  simp only [workLeft, length_cons, length_nil] at hl ht ht' ⊢
  omega

/-! ## Suspects -/

variable {kept : List CompId}

theorem suspected_start (kept : List CompId) (net : Network) :
    Suspected kept net ((net.components.filter fun x => x.2.outputs.isEmpty).map (·.1)).reverse := by
  intro c hc ho
  obtain ⟨k, hk⟩ := contains_iff.mp hc
  rw [outputsOf_of_get? hk] at ho
  refine .inr (.inr ?_)
  simp only [mem_reverse, mem_map, mem_filter]
  exact ⟨(c, k), ⟨mem_components.mpr hk, by rw [ho]; rfl⟩, rfl⟩

theorem Suspected.clear (h : Suspected kept net (c :: suspects))
    (hc : ∀ k, net.get? c = some k → k.outputs = [] → c ∈ kept ∨ k.op = .constant) :
    Suspected kept net suspects := by
  intro d hd ho
  rcases h d hd ho with hm | hm | hm
  · exact .inl hm
  · exact .inr (.inl hm)
  rcases mem_cons.mp hm with rfl | hm
  · obtain ⟨k, hk⟩ := contains_iff.mp hd
    rw [outputsOf_of_get? hk] at ho
    rw [op?_of_get? hk]
    exact (hc k hk ho).imp id fun hop => .inl (congrArg some hop)
  · exact .inr (.inr hm)

theorem Suspected.drop (h : Suspected kept net (c :: suspects)) (hr : Released net c k suspects [] s)
    (hb : net.Balanced) (hk : net.get? c = some k) (ho : k.outputs = []) : Suspected kept s.1 s.2 := by
  intro d hd hod
  have e := hr.edit hb hk ho
  have hdc : d ≠ c := e.not_gone hd
  have hd₀ : net.contains d := by rwa [e.contains hdc] at hd
  by_cases hdi : d ∈ k.inputs
  · exact .inr (.inr (hr.new d hdi not_mem_nil hod))
  rw [op?_of_face? (e.face d hdc)]
  rcases h d hd₀ (hr.outputsOf_eq_nil hb hk ho hdi hod) with hm | hm | hm
  · exact .inl hm
  · exact .inr (.inl hm)
  · exact .inr (.inr (hr.old d ((mem_cons.mp hm).resolve_left hdc)))

end Release

theorem workLeft_start (net : Network) :
    workLeft ⟨net, ((net.components.filter fun x => x.2.outputs.isEmpty).map (·.1)).reverse, 0⟩ <
      Loop.allowance (net.extent + 1 + Loop.patience) := by
  have hlen := length_filter_le (fun x => x.2.outputs.isEmpty) net.components
  have hcomp := net.length_components_le
  have htot := net.total_add (fun k => k.inputs.length) fun _ => 1
  have hone := net.total_one_le
  have hin : (net.total fun k => k.inputs.length) ≤ net.total fun k => k.inputs.length + k.outputs.length :=
    total_mono fun k => Nat.le_add_right _ _
  have hext := net.extent_eq
  have hlt := twice_lt_allowance net.extent Loop.patience
  simp only [workLeft, length_reverse, length_map]
  omega

inductive Turned (kept : List CompId) (s : State) : Turn State (Network × Nat) → Prop where
  | ended (h : s.suspects = []) : Turned kept s (.done (s.net, s.removed))
  | clear {c : CompId} {rest : List CompId} (h : s.suspects = c :: rest)
    (hc : ∀ k, s.net.get? c = some k → k.outputs = [] → c ∈ kept ∨ k.op = .constant) :
    Turned kept s (.next ⟨s.net, rest, s.removed⟩)
  | drop {c : CompId} {rest : List CompId} {k : Component} (h : s.suspects = c :: rest)
    (hk : s.net.get? c = some k) (ho : k.outputs = []) (hkept : c ∉ kept) (hop : k.op ≠ .constant) :
    Turned kept s (.next ⟨(k.inputs.foldl (release c) (s.net.remove c, rest)).1,
      (k.inputs.foldl (release c) (s.net.remove c, rest)).2, s.removed + 1⟩)

theorem turn_yields (kept : List CompId) (s : State) : (DeadEnds.turn kept s).Yields (Turned kept s) := by
  obtain ⟨net, suspects, removed⟩ := s
  cases suspects with
  | nil => exact .pure (.ended rfl)
  | cons c rest =>
    unfold DeadEnds.turn
    dsimp only
    cases hk : net.get? c with
    | none =>
      refine .pure (.clear rfl fun k hk' => ?_)
      rw [hk] at hk'
      cases hk'
    | some k =>
      dsimp only
      split
      · next hcond =>
        refine .pure (.clear rfl fun k' hk' ho => ?_)
        rw [hk] at hk'
        cases hk'
        simpa [ho] using hcond
      · next hcond =>
        simp only [Bool.or_eq_true, not_or, contains_iff_mem, decide_eq_true_eq,
          Bool.not_eq_true', isEmpty_eq_false_iff, ne_eq, not_not] at hcond
        exact .pure (.drop rfl hk hcond.2 hcond.1.1 hcond.1.2)

theorem workLeft_clear (net : Network) (c : CompId) (rest : List CompId) (removed : Nat) :
    workLeft ⟨net, rest, removed⟩ < workLeft ⟨net, c :: rest, removed⟩ := by
  simp only [workLeft, length_cons]
  omega

section Turns

variable {kept keep : List CompId} {net : Network}

theorem Invariant.turn (hkeep : Anchors kept keep net) (hs : Solid keep net) (s : State)
    (h : Invariant kept keep net s) : (DeadEnds.turn kept s).Yields (Guarantee.Reaches
      (fun s' => Invariant kept keep net s' ∧ workLeft s' < workLeft s)
      fun r => Progress keep r.2 net r.1 ∧ Trim keep r.1) := by
  refine (turn_yields kept s).mono fun t ht => ?_
  obtain ⟨net1, suspects, removed⟩ := s
  have hp : Progress keep removed net net1 := h.progress
  have hkeep1 := hp.toSound.anchors hkeep
  cases ht with
  | ended hnil =>
    cases hnil
    refine ⟨hp, fun c hc ho => ?_⟩
    rw [hkeep1 c]
    rcases h.suspected c hc ho with hm | hm | hm
    · exact .inl hm
    · exact .inr hm
    · cases hm
  | @clear c rest hcons hc =>
    cases hcons
    exact ⟨⟨hp, h.suspected.clear hc⟩, workLeft_clear net1 c rest removed⟩
  | @drop c rest k hcons hk ho hkept hop =>
    cases hcons
    have hr := release_fold hp.balanced hk ho rest
    generalize k.inputs.foldl (release c) (net1.remove c, rest) = s' at hr
    obtain ⟨net2, suspects⟩ := s'
    have hnot : c ∉ keep := by
      rw [hkeep1 c, op?_of_get? hk]
      rintro (hm | hm)
      · exact hkept hm
      · exact hop (Option.some.inj hm)
    have hstep := dropped_progress (hr.edit hp.balanced hk ho) hp.balanced hp.acyclic
      (hp.solid hs) (contains_of_get? hk) hnot
    exact ⟨⟨hp.trans hstep, h.suspected.drop hr hp.balanced hk ho⟩, hr.workLeft_lt hk removed⟩

end Turns

end DeadEnds

namespace Network

variable {kept keep : List CompId} {net : Network}

/-- Removing dead ends changes nothing that can be observed, and leaves none. -/
theorem removeDeadEnds_yields (hkeep : Anchors kept keep net) (hb : net.Balanced) (ha : net.Acyclic)
    (hs : Solid keep net) :
    (net.removeDeadEnds kept).Yields fun r => Progress keep r.2 net r.1 ∧ Trim keep r.1 := by
  exact Checked.total.run (DeadEnds.Invariant kept keep net) DeadEnds.workLeft _
    (DeadEnds.Invariant.turn hkeep hs) ⟨.refl hb ha, DeadEnds.suspected_start kept net⟩
    (DeadEnds.workLeft_start net)

end Network

end GameNet
