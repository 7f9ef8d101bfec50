import GameNet.Proofs.Game.Answers
import GameNet.Simplify.Endpoints
import GameNet.Simplify.FanIn

/-!
New gates between old ones: in front of legals that something reads, and in gates that read too much.
-/

namespace GameNet.Network

open List

/-! ## Inserting a gate -/

structure Grows (op : Op) (net net' : Network) : Prop where
  parts : net'.parts = net.parts
  capacity : net'.capacity = net.capacity + 1
  bare : ∀ d, d ≠ net.capacity → net'.bare? d = net.bare? d
  gate : net'.op? net.capacity = some op
  shaped : ∀ k, net'.get? net.capacity = some k → k.Shaped

structure Inserts (op : Op) (edges : CompId → CompId → Nat) (net net' : Network) : Prop
    extends Grows op net net' where
  wired : Wired net' edges edges

def withGate (net : Network) (b : Bool) (v : CompId → Bool) (c : CompId) : Bool :=
  if c = net.capacity then b else v c

section Inserts

variable {op : Op} {edges : CompId → CompId → Nat} {net net' : Network} {keep : CompId → Prop}

theorem Adds.grows {kind : Kind} {count : Int} {net₁ : Network} {touched : CompId → Prop}
    (h : Adds kind count net net₁) (hr : Rewires touched net₁ net')
    (ht : ∀ d, touched d → d = net.capacity) : Grows kind.op net net' where
  parts := hr.parts.trans h.parts
  capacity := hr.capacity.trans h.capacity
  bare d hd := (hr.bare d fun h' => hd (ht d h')).trans (h.bare? hd)
  gate := (hr.op? _).trans h.op?
  shaped k hk := by
    obtain ⟨k₁, hk₁, hface⟩ := exists_of_face? (hr.face net.capacity).symm hk
    rw [h.get?, if_pos rfl, Option.some.injEq] at hk₁
    subst hk₁
    exact (Component.shaped_new kind count).of_face hface.symm

theorem Grows.face (h : Grows op net net') {d : CompId} (hd : d ≠ net.capacity) :
    net'.face? d = net.face? d := face?_of_bare? (h.bare d hd)

theorem Grows.contains (h : Grows op net net') {d : CompId} (hd : d ≠ net.capacity) :
    net'.contains d = net.contains d := contains_of_face? (h.face hd)

theorem Inserts.sound (h : Inserts op edges net net') (hop : op.IsLattice)
    (rank : CompId → Nat) (hrank : ∀ a b, 0 < edges a b → rank a < rank b)
    (hgate : ∃ a, 0 < edges a net.capacity)
    (hleaf : ∀ c, c ≠ net.capacity → net.inputsOf c = [] → ∀ a, edges a c = 0)
    (hfed : ∀ c, c ≠ net.capacity → net.inputsOf c ≠ [] → ∃ a, 0 < edges a c)
    (hnarrow : ∀ c op, net.op? c = some op → op ≠ .and → op ≠ .or → (net.inputsOf c).length ≤ 1 →
      ∀ a b, 0 < edges a c → 0 < edges b c → a = b ∧ edges a c = 1) (hread : ∀ v, net.Obeys v → ∃ b,
      (∀ inputs, (∀ a, a ∈ inputs ↔ 0 < edges a net.capacity) → b = op.read inputs (net.withGate b v)) ∧
      ∀ c op', net.op? c = some op' → net.inputsOf c ≠ [] → ∀ inputs, (∀ a, a ∈ inputs ↔ 0 < edges a c) →
          op'.read inputs (net.withGate b v) = op'.read (net.inputsOf c) v)
    (hunread : ∀ a, net.Unread a → ∀ b, edges a b = 0) : Sound keep net net' := by
  have hold : ∀ {c : CompId}, net.contains c → c ≠ net.capacity := ne_capacity_of_contains
  have hnil : ∀ c, (net'.inputsOf c = [] ↔ ∀ a, edges a c = 0) := by
    intro c
    rw [eq_nil_iff_forall_not_mem]
    exact forall_congr' fun a => by rw [h.wired.mem_inputsOf, Nat.not_lt, Nat.le_zero]
  refine
    { parts := h.parts, capacity := by rw [h.capacity]; exact Nat.le_succ _
      face := fun c hc _ => h.face (hold hc), fresh := fun c hc' hc => ?_
      leaf := fun c hc hc' hi => ⟨(hnil c).mpr (hleaf c (hold hc) hi), .inl (h.bare c (hold hc))⟩
      fed := fun c hc' hi => ?_, narrow := fun c op' hop' hand hor hl => ?_
      unread := fun c hun => eq_nil_iff_forall_not_mem.mpr fun b hcb => ?_
      values := fun v hv => ?_
      balanced := h.wired.balanced, acyclic := ?_
      keeps := fun c _ hc => (h.contains (hold hc)).trans hc }
  · have hcap : c = net.capacity := by
      by_contra hne
      rw [h.contains hne, hc] at hc'
      cases hc'
    subst hcap
    refine ⟨Nat.le_refl _, ?_, fun hi => ?_, h.shaped⟩
    · rw [h.gate]
      exact hop.imp (congrArg some) (congrArg some)
    obtain ⟨a, hpos⟩ := hgate
    rw [(hnil _).mp hi a] at hpos
    exact Nat.lt_irrefl 0 hpos
  · intro hi'
    obtain ⟨a, hpos⟩ := hfed c (hold (contains_of_fed hi)) hi
    rw [(hnil c).mp hi' a] at hpos
    exact Nat.lt_irrefl 0 hpos
  · rw [length_inputsOf_le_one h.wired]
    exact hnarrow c op' hop' hand hor hl
  · have hpos := h.wired.mem_outputsOf.mp hcb
    rw [hunread c hun b] at hpos
    exact Nat.lt_irrefl 0 hpos
  · obtain ⟨b, hb, hothers⟩ := hread v hv
    refine ⟨net.withGate b v, fun c op' hop' hi => ?_, fun c hc _ => if_neg (hold hc.contains)⟩
    by_cases hcap : c = net.capacity
    · subst hcap
      rw [h.gate] at hop'
      cases hop'
      rw [withGate, if_pos rfl]
      exact hb _ fun a => h.wired.mem_inputsOf
    · have hop₀ : net.op? c = some op' := by rwa [op?_of_face? (h.face hcap)] at hop'
      have hi₀ : net.inputsOf c ≠ [] := fun hnone => hi ((hnil c).mpr (hleaf c hcap hnone))
      rw [hothers c op' hop₀ hi₀ _ fun a => h.wired.mem_inputsOf, withGate, if_neg hcap]
      exact hv c op' hop₀ hi₀
  · have hranked : net'.Ranked rank := fun a b hab => hrank a b (h.wired.mem_inputsOf.mp hab)
    exact hranked.acyclic

end Inserts

theorem replaceInputs_yields {net : Network} {ins outs : CompId → CompId → Nat}
    (touched : CompId → Prop) {old new : CompId} {os : List CompId} (h : Wired net ins outs)
    (hne : new ≠ old) (ho : ∀ o ∈ os, net.contains o) (hle : ∀ b, os.count b ≤ ins old b) :
    (os.foldlM (fun net o => net.replaceInput o old new) net : Checked Network).Yields fun net' =>
      Rewires touched net net' ∧ Wired net' (fun a b => if a = old then ins a b - os.count b
        else if a = new then ins a b + os.count b else ins a b) outs := by
  apply foldlM_rewires touched os
  · exact h.congr (fun a b => by simp) fun a b => rfl
  intro done o net' hmem hsub hr hw
  have hcount := fun b => Nat.le_trans (hsub.count_le b) (hle b)
  have hpos : 0 < ins old o - done.count o := by
    have := hcount o
    grind
  refine (replaceInput_yields touched hw ((hr.contains o).trans (ho o hmem)) (by simpa using hpos)
    new).mono fun net1 h1 => ⟨h1.1, h1.2.congr (fun a b => ?_) fun a b => rfl⟩
  have := hcount b
  grind [arrow]

def FittedAt (net : Network) (c : CompId) : Prop := ∀ k, net.get? c = some k → k.op = .and →
  k.reqTrue = k.inputs.length ∧ k.reqFalse = k.inputs.length - 1

theorem FittedAt.of_bare {net net' : Network} {c : CompId} (h : net.FittedAt c)
    (hbare : net'.bare? c = net.bare? c)
    (hlen : (net'.inputsOf c).length = (net.inputsOf c).length) : net'.FittedAt c := by
  intro k' hk' hop
  obtain ⟨k, hk⟩ := contains_iff.mp
    ((contains_of_face? (face?_of_bare? hbare)).symm.trans (contains_of_get? hk'))
  rw [bare?, bare?, hk, hk'] at hbare
  have hbare : k'.bare = k.bare := Option.some.inj hbare
  have hkind := congrArg Component.kind hbare
  have htrue := congrArg Component.reqTrue hbare
  have hfalse := congrArg Component.reqFalse hbare
  simp only [Component.bare] at hkind htrue hfalse
  rw [inputsOf_of_get? hk, inputsOf_of_get? hk'] at hlen
  rw [htrue, hfalse, hlen]
  exact h k hk (by rw [← hop, Component.op, Component.op, hkind])

/-! ## The ends of a network -/

def ended (net : Network) (l input a b : CompId) : Nat :=
  if b = l then if a = net.capacity then 1 else 0
  else if b = net.capacity then if a = input then 1 else 0
  else if a = l then 0
  else if a = net.capacity then net.edgesIn l b
  else net.edgesIn a b

section Ends

variable {net : Network} {l input : CompId} {k : Component}

theorem edgesIn_of_single (hin : net.inputsOf l = [input]) (a : CompId) :
    net.edgesIn a l = if a = input then 1 else 0 := by
  rw [edgesIn, hin, count_singleton]
  grind

/-- The edges when the new gate has its ends and the legal still reads its old input. -/
theorem Wired.joined (hb : net.Balanced) (ha : net.Acyclic) (hin : net.inputsOf l = [input])
    (hlg : l ≠ net.capacity) (hig : input ≠ net.capacity) (hil : input ≠ l) {net₄ : Network} {outputs : List CompId} (hout : ∀ b, outputs.count b = net.edgesIn l b)
    (hg : net₄.contains net.capacity) (hw : Wired net₄
      (fun a b => if a = l then net.edgesIn a b - outputs.count b
        else if a = net.capacity then net.edgesIn a b + outputs.count b else net.edgesIn a b)
      fun a b => if a = l then 0
        else net.edgesIn a b - arrow input l a b + arrow input net.capacity a b) :
    Wired (net₄.modify net.capacity fun k => { k with inputs := [input], outputs := l :: outputs })
      (fun a b => if b = net.capacity then if a = input then 1 else 0
        else if a = l then 0 else if a = net.capacity then net.edgesIn l b else net.edgesIn a b)
      (net.ended l input) := by
  refine hw.modify hg (fun _ => [input]) (fun _ => l :: outputs) (fun _ => rfl) (fun _ => rfl)
    (fun a => ?_) (fun a b hb' => ?_) (fun b => ?_) fun a b ha' => ?_
  · rw [count_singleton]
    grind
  · have := (edgesIn_capacity hb b).2
    have := hout b
    grind
  · have := hout b
    have := edgesIn_capacity hb l
    have := ha.irrefl l
    grind [ended]
  · have := edgesIn_of_single hin a
    have := edgesIn_capacity hb a
    grind [ended, arrow]

theorem endAtLegal_yields (hb : net.Balanced) (ha : net.Acyclic) (hk : net.get? l = some k)
    (hi : k.inputs = [input]) (ho : k.outputs ≠ []) :
    (net.endAtLegal l).Yields fun r => ∃ net', r = some net' ∧ Inserts .or (net.ended l input) net net' := by
  have hin : ∀ a, net.edgesIn a l = if a = input then 1 else 0 :=
    edgesIn_of_single ((inputsOf_of_get? hk).trans hi)
  have hinput : net.contains input :=
    hb.contains_source (b := l) (by rw [inputsOf_of_get? hk, hi]; exact mem_singleton_self _)
  have hl := contains_of_get? hk
  have hlg := ne_capacity_of_contains hl
  have hig := ne_capacity_of_contains hinput
  have hil : input ≠ l := by
    rintro rfl
    have h0 := ha.irrefl input
    rw [hin, if_pos rfl] at h0
    cases h0
  let touched : CompId → Prop := (· = net.capacity)
  unfold endAtLegal
  refine .bind_ok (get_of_get? hk) ?_
  rw [if_neg (by rwa [List.isEmpty_iff]), hi]
  dsimp only
  obtain ⟨net1, hadd, hnew⟩ := add_eq net .or unset
  rw [hadd]
  have hw1 := hnew.wired hb.wired
  refine .bind (replaceOutput_yields touched hw1 (hnew.contains_old hinput) ?_ net.capacity)
    fun net2 h2 => ?_
  · rw [hin, if_pos rfl]
    exact Nat.one_pos
  obtain ⟨hr2, hw2⟩ := h2
  have hl2 := (hr2.contains l).trans (hnew.contains_old hl)
  obtain ⟨k2, hk2⟩ := contains_iff.mp hl2
  have hout2 : ∀ b, k2.outputs.count b = net.edgesIn l b := by
    intro b
    have := hw2.outs l b
    rw [edgesOut, outputsOf_of_get? hk2] at this
    grind [arrow]
  refine .bind_ok (get_of_get? hk2) ?_
  -- the legal hands its outputs to the new gate
  have hr3 := hr2.trans (rewires_modify (f := fun k => { k with outputs := [] }) touched net2 l)
  have hw3 : Wired (net2.modify l fun k => { k with outputs := [] }) net.edgesIn (fun a b =>
      if a = l then 0
      else net.edgesIn a b - arrow input l a b + arrow input net.capacity a b) :=
    hw2.modify_outputs hl2 (fun _ => []) (fun b => by simp) fun a b hal => by rw [if_neg hal]
  generalize net2.modify l (fun k => { k with outputs := [] }) = net3 at hr3 hw3
  dsimp only
  refine .bind (replaceInputs_yields touched hw3 (Ne.symm hlg) (fun o ho => ?_) fun b => ?_)
    fun net4 h4 => ?_
  · rw [← count_pos_iff, hout2, edgesIn_pos] at ho
    exact (hr3.contains o).trans (hnew.contains_old (contains_of_mem_inputsOf ho))
  · exact Nat.le_of_eq (hout2 b)
  obtain ⟨hr4, hw4⟩ := h4
  have hr4 := hr3.trans hr4
  have hg4 := (hr4.contains _).trans hnew.contains_new
  refine .bind_ok (update_of_contains hg4 _) ?_
  have hr5 := hr4.trans (rewires_modify touched net4 net.capacity
    (f := fun k => { k with inputs := [input], outputs := l :: k2.outputs }))
  have hw5 := Wired.joined hb ha ((inputsOf_of_get? hk).trans hi) hlg hig hil hout2 hg4 hw4
  generalize net4.modify net.capacity _ = net5 at hr5 hw5
  have hl5 := (hr5.contains l).trans (hnew.contains_old hl)
  refine .bind_ok (update_of_contains hl5 _) ?_
  have hr6 := hr5.trans (rewires_modify touched net5 l
    (f := fun k => { k with inputs := [net.capacity] }))
  have hw6 : Wired (net5.modify l fun k => { k with inputs := [net.capacity] })
      (net.ended l input) (net.ended l input) := by
    refine hw5.modify_inputs hl5 (fun _ => [net.capacity]) (fun a => ?_) fun a b hb' => ?_
    · rw [count_singleton]
      grind [ended]
    · grind [ended]
  generalize net5.modify l _ = net6 at hr6 hw6
  refine .bind (refresh_yields touched hw6 ((hr6.contains _).trans hnew.contains_new)
    (fun i hi => hw6.balanced.contains_source hi) rfl) fun net7 h7 => ?_
  obtain ⟨hr7, hw7, -⟩ := h7
  exact .pure ⟨net7, rfl, ⟨hnew.grows (hr6.trans hr7) fun d hd => hd, hw7⟩⟩

theorem read_ended (hb : net.Balanced) (hin : net.inputsOf l = [input]) {w : CompId → Bool}
    (hgate : w net.capacity = w l) (hpass : w l = w input) {c : CompId} (hcg : c ≠ net.capacity)
    {inputs : List CompId} (hmem : ∀ a, a ∈ inputs ↔ 0 < net.ended l input a c) (op : Op) :
    op.read inputs w = op.read (net.inputsOf c) w := by
  have hl := edgesIn_of_single hin
  have hcap := edgesIn_capacity hb c
  refine Op.read_congr _ fun b => ⟨fun hex => ?_, fun hex => ?_⟩
  · obtain ⟨a, hac, hab⟩ := hex
    rw [hmem] at hac
    rcases eq_or_ne a net.capacity with rfl | hag
    · rcases eq_or_ne c l with rfl | hcl
      · exact ⟨input, by rw [hin]; exact mem_singleton_self _, by rw [← hpass, ← hgate, hab]⟩
      · exact ⟨l, edgesIn_pos.mp (by grind [ended]), hgate.symm.trans hab⟩
    · exact ⟨a, edgesIn_pos.mp (by grind [ended]), hab⟩
  · obtain ⟨a, hac, hab⟩ := hex
    rw [← edgesIn_pos] at hac
    rcases eq_or_ne c l with rfl | hcl
    · have hai : a = input := by grind
      exact ⟨net.capacity, (hmem _).mpr (by grind [ended]), by rw [hgate, hpass, ← hai, hab]⟩
    rcases eq_or_ne a l with rfl | hal
    · exact ⟨net.capacity, (hmem _).mpr (by grind [ended]), hgate.trans hab⟩
    · exact ⟨a, (hmem _).mpr (by grind [ended]), hab⟩

theorem Inserts.ended_sound {net' : Network} {keep : CompId → Prop} {op : Op}
    (h : Inserts .or (net.ended l input) net net') (hb : net.Balanced)
    (ha : net.Acyclic) (hin : net.inputsOf l = [input]) (hop : net.op? l = some op) (hnot : op ≠ .not) :
    Sound keep net net' := by
  obtain ⟨rank, hrank, -⟩ := ha.exists_rank hb
  have hedge : ∀ a b, 0 < net.edgesIn a b → rank a < rank b := fun a b hab =>
    hrank a b (edgesIn_pos.mp hab)
  have hl := edgesIn_of_single hin
  have hcap := edgesIn_capacity hb
  have hlg := ne_capacity_of_contains (contains_of_op? hop)
  have hfed : ∀ c, net.inputsOf c ≠ [] ↔ ∃ a, 0 < net.edgesIn a c := fun c => by
    simp only [edgesIn_pos, ne_eq, eq_nil_iff_forall_not_mem, not_forall, not_not]
  have hil := hedge input l
  have hig : input ≠ net.capacity := by
    rintro rfl
    have := (hcap l).2
    rw [hl, if_pos rfl] at this
    cases this
  have hpass : ∀ v, net.Obeys v → v l = v input := by
    intro v hv
    have := hv l op hop (by rw [hin]; exact cons_ne_nil _ _)
    rwa [hin, Op.read_singleton _ hnot] at this
  refine h.sound (.inr rfl)
    (fun c => if c = net.capacity then 2 * rank l - 1 else 2 * rank c) (fun a b hab => ?_)
    ⟨input, ?_⟩ (fun c hc hi a => ?_) (fun c hc hi => ?_)
    (fun c op hop' hand hor hlen a b hac hbc => ?_) (fun v hv => ⟨v l, fun inputs hmem => ?_, ?_⟩) ?_
  · have h1 := hedge a b
    have h2 := hedge l b
    have h3 := hl input
    grind [ended]
  · grind [ended]
  · have h0 : net.edgesIn a c = 0 := by rw [edgesIn, hi]; rfl
    have h1 : net.edgesIn l c = 0 := by rw [edgesIn, hi]; rfl
    have h2 : c ≠ l := by rintro rfl; rw [hi] at hin; cases hin
    grind [ended]
  · obtain ⟨a, hac⟩ := (hfed c).mp hi
    by_cases hcl : c = l
    · exact ⟨net.capacity, by grind [ended]⟩
    by_cases hal : a = l
    · exact ⟨net.capacity, by grind [ended]⟩
    · exact ⟨a, by grind [ended]⟩
  · rw [length_inputsOf_le_one hb.wired] at hlen
    have hcg := ne_capacity_of_contains (contains_of_op? hop')
    have h1 := hlen a b
    have h2 := hlen a l
    have h3 := hlen l b
    have h4 := hlen l l
    grind [ended]
  · have hone : ∀ a, a ∈ inputs ↔ a ∈ [input] := fun a => by
      rw [hmem, mem_singleton]
      grind [ended]
    rw [Op.read_of_mem_iff _ _ hone, Op.read_singleton _ (by decide), withGate, if_neg hig]
    exact hpass v hv
  · intro c op' hop' hi inputs hmem
    have hcg := ne_capacity_of_contains (contains_of_op? hop')
    have hold : ∀ a, a ≠ net.capacity → net.withGate (v l) v a = v a := fun a hne => if_neg hne
    rw [read_ended hb hin ((if_pos rfl).trans (hold l hlg).symm)
      ((hold l hlg).trans ((hpass v hv).trans (hold input hig).symm)) hcg hmem]
    exact Op.read_of_forall_eq _ fun a hac => hold a (ne_capacity_of_contains (hb.contains_source hac))
  · intro a hun b
    have h1 := hun.edgesIn hb b
    have h2 := hun.edgesIn hb l
    have h3 := ne_capacity_of_contains hun.1.contains
    grind [ended]

theorem endAtLegal_ensures (hb : net.Balanced) (ha : net.Acyclic) :
    (net.endAtLegal l).Ensures fun r => r.elim (net.outputsOf l = []) fun net' =>
      ∃ input, net.inputsOf l = [input] ∧ Inserts .or (net.ended l input) net net' := by
  intro r hr
  have hr' := hr
  unfold endAtLegal at hr'
  obtain ⟨k, hk, hr'⟩ := exists_of_bind_eq_ok hr'
  have hk := get?_of_get hk
  by_cases ho : k.outputs = []
  · rw [if_pos (by rwa [List.isEmpty_iff])] at hr'
    cases hr'
    exact (outputsOf_of_get? hk).trans ho
  rw [if_neg (by rwa [List.isEmpty_iff])] at hr'
  split at hr'
  · next input hi =>
    obtain ⟨_, hok, net', rfl, hins⟩ := endAtLegal_yields hb ha hk hi ho
    rw [hr] at hok
    cases hok
    exact ⟨input, (inputsOf_of_get? hk).trans hi, hins⟩
  · cases hr'

section Inserts

variable {net' : Network}

section

variable (h : Inserts .or (net.ended l input) net net')
include h

theorem Inserts.length_ended (hb : net.Balanced) (hlg : l ≠ net.capacity) {c : CompId} (hcl : c ≠ l)
    (hcg : c ≠ net.capacity) : (net'.inputsOf c).length = (net.inputsOf c).length := by
  have hcap : net.capacity ∉ net.inputsOf c := by
    rw [← edgesIn_pos, (edgesIn_capacity hb c).2]
    exact Nat.lt_irrefl 0
  have hperm : (net'.inputsOf c).Perm
      ((net.inputsOf c).map fun a => if a = l then net.capacity else a) := by
    refine perm_iff_count.mpr fun a => ?_
    have hedge : (net'.inputsOf c).count a = net.ended l input a c := h.wired.ins a c
    rw [hedge, count_map_replace, ended, if_neg hcl, if_neg hcg]
    grind [edgesIn, count_eq_zero]
  rw [hperm.length_eq, length_map]

theorem Inserts.outputsOf_ended (ha : net.Acyclic) (hin : net.inputsOf l = [input])
    (hlg : l ≠ net.capacity) : net'.outputsOf l = [] := by
  refine eq_nil_iff_forall_not_mem.mpr fun b hb => ?_
  rw [h.wired.mem_outputsOf] at hb
  have hil : input ≠ l := by
    rintro rfl
    refine ha input (.single ?_)
    rw [Feeds, hin]
    exact mem_singleton_self _
  grind [ended]

theorem Inserts.ended_fitted (hb : net.Balanced) (hop : net.op? l = some .proposition)
    (hf : net.Fitted) : net'.Fitted := by
  intro c k' hk' hand
  have hop' := op?_of_get? hk'
  have hcg : c ≠ net.capacity := by
    rintro rfl
    rw [h.gate, hand] at hop'
    cases hop'
  have hcl : c ≠ l := by
    rintro rfl
    rw [op?_of_face? (h.face hcg), hop, hand] at hop'
    cases hop'
  have hlen := h.length_ended hb (ne_capacity_of_contains (contains_of_op? hop)) hcl hcg
  exact FittedAt.of_bare (hf c) (h.bare c hcg) hlen k' hk' hand

end

end Inserts

end Ends

def Ended (net : Network) : Prop := ∀ l ∈ net.legals, net.outputsOf l = []

theorem Formed.endAtLegals {net : Network} (h : net.Formed) : net.endAtLegals.Ensures fun r =>
      Sound (fun _ => True) net r.1 ∧ (net.Fitted → r.1.Fitted) ∧ r.1.Ended := by
  unfold Network.endAtLegals
  let inv : List CompId → Network × Nat → Prop := fun rest s =>
    Sound (fun _ => True) net s.1 ∧ (net.Fitted → s.1.Fitted) ∧ (∀ l ∈ rest, l ∈ net.legals) ∧
      ∀ l ∈ net.legals, l ∈ rest ∨ s.1.outputsOf l = []
  refine Checked.Ensures.mono (Checked.partly.foldlM inv (fun l rest s hs => ?_) net.legals (net, 0)
    ⟨.refl h.balanced h.acyclic, id, fun l hl => hl, fun l hl => .inl hl⟩) fun r hr => ?_
  · obtain ⟨net1, n⟩ := s
    obtain ⟨hsound, hfit, hrest, hends⟩ := hs
    have hop : ∀ l ∈ net.legals, net1.op? l = some .proposition := by
      intro l hl
      have hold := h.op?_of_legal hl
      have hc := contains_of_op? hold
      rw [hsound.op? hc (hsound.keeps l trivial hc), hold]
    refine .bind (endAtLegal_ensures hsound.balanced hsound.acyclic) fun r hr => ?_
    cases r with
    | none =>
      refine .pure ⟨hsound, hfit, (forall_mem_cons.mp hrest).2, fun m hm => ?_⟩
      rcases hends m hm with hml | hend
      · rcases mem_cons.mp hml with rfl | hml
        · exact .inr hr
        · exact .inl hml
      · exact .inr hend
    | some net2 =>
      obtain ⟨input, hin, hins⟩ := hr
      have hopl := hop l (hrest l mem_cons_self)
      have hstep : Sound (fun _ => True) net1 net2 :=
        hins.ended_sound hsound.balanced hsound.acyclic hin hopl (by decide)
      refine .pure ⟨hsound.trans hstep, fun hf => hins.ended_fitted hsound.balanced hopl (hfit hf),
        (forall_mem_cons.mp hrest).2, fun m hm => ?_⟩
      rcases hends m hm with hml | hend
      · rcases mem_cons.mp hml with rfl | hml
        · exact .inr (hins.outputsOf_ended hsound.acyclic hin (ne_capacity_of_contains (contains_of_op? hopl)))
        · exact .inl hml
      · exact .inr (hstep.unread m ⟨.inl ⟨.proposition, hop m hm, rfl⟩, hend⟩)
  · refine ⟨hr.1, hr.2.1, fun l hl => ?_⟩
    rw [field_of_parts Network.legals hr.1.parts] at hl
    exact (hr.2.2.2 l hl).resolve_left not_mem_nil

theorem Keeps.ended {net net' : Network} (h : Keeps net net') (he : net.Ended) (hcast : net.Cast)
    (hlegals : ∀ l ∈ net'.legals, l ∈ net.legals) : net'.Ended := by
  intro l hl
  cases hk : net'.get? l with
  | none => rw [outputsOf, hk]; rfl
  | some k' =>
    have hold := he l (hlegals l hl)
    obtain ⟨k, hk0, hstays⟩ := h.exists_old hk (.inl (contains_of_op? (hcast.op?_of_legal (hlegals l hl))))
    rw [outputsOf_of_get? hk0] at hold
    rw [outputsOf_of_get? hk]
    refine hstays.outputs ?_ hold
    have hop := hcast.op?_of_legal (hlegals l hl)
    rw [op?_of_get? hk0, Option.some.injEq] at hop
    rw [Component.isGate, hop]
    rfl

end GameNet.Network
