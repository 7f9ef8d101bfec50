import GameNet.Proofs.Simplify.Replace
import GameNet.Simplify.Sharing

/-!
Sharing: gates of one kind with the same inputs become one gate.
-/

namespace GameNet.Network

open List

/-- The edges when `twin` has taken over the outputs of `c`; one that both have fed is fed as often
as by the one that fed it more often. -/
def merged (net : Network) (c twin a b : CompId) : Nat :=
  if a = c ∨ b = c then 0
  else if a = twin then max (net.edgesIn twin b) (net.edgesIn c b)
  else net.edgesIn a b

theorem replaces_merged (net : Network) {c twin : CompId} (h : twin ≠ c) :
    Replaces net c twin (net.merged c twin) := by
  constructor <;> grind [merged]

section Merge

variable {net net' : Network} {c twin : CompId} {k : Component}

theorem merge_release {outs : List CompId} (hb : net.Balanced) (ht : net.contains twin)
    (ho : ∀ o ∈ outs, net.contains o) :
    (outs.foldlM (fun net o => do
      if (← net.get twin).outputs.contains o then net.dropEdge twin o else return net) net :
      Checked Network).Yields fun net' => Rewires (· ∈ outs) net net' ∧
        Wired net' (fun a b => if a = twin then net.edgesIn a b - outs.count b else net.edgesIn a b)
          (fun a b => if a = twin then net.edgesIn a b - outs.count b else net.edgesIn a b) := by
  apply foldlM_rewires (· ∈ outs) outs
  · exact hb.wired.congr (fun a b => by simp) fun a b => by simp
  intro done o net' hmem _ hr hw
  obtain ⟨kt, hkt⟩ := contains_iff.mp ((hr.contains twin).trans ht)
  refine .bind_ok (get_of_get? hkt) ?_
  rw [← outputsOf_of_get? hkt]
  by_cases hto : o ∈ net'.outputsOf twin
  · rw [if_pos (by simpa using hto)]
    refine (dropEdge_yields (· ∈ outs) hw (contains_of_get? hkt) ((hr.contains o).trans (ho o hmem)) hmem).mono
      fun net1 h1 => ⟨h1.1, h1.2.congr (fun a b => ?_) fun a b => ?_⟩ <;> grind [arrow]
  · rw [if_neg (by simpa using hto)]
    have h0 := Nat.eq_zero_of_not_pos (hw.mem_outputsOf.not.mp hto)
    refine .pure ⟨.refl _ _, hw.congr (fun a b => ?_) fun a b => ?_⟩ <;> grind

theorem merge_detach {ins outs : CompId → CompId → Nat} {is : List CompId} (h : Wired net ins outs)
    (hi : ∀ i ∈ is, net.contains i) (touched : CompId → Prop) :
    (is.foldlM (fun net i => net.update i fun k => { k with outputs := k.outputs.erase c }) net :
      Checked Network).Yields fun net' => Rewires touched net net' ∧
        Wired net' ins (fun a b => outs a b - if b = c then is.count a else 0) := by
  apply foldlM_rewires touched is
  · exact h.congr (fun _ _ => rfl) fun a b => by simp
  intro done i net' hmem _ hr hw
  refine ⟨_, update_of_contains ((hr.contains i).trans (hi i hmem)) _, rewires_modify touched net' i,
    (hw.eraseOutput i c).congr (fun _ _ => rfl) fun a b => ?_⟩
  grind [arrow]

theorem mergeInto_yields (hb : net.Balanced) (hk : net.get? c = some k) (ht : net.contains twin)
    (hne : twin ≠ c) (hcc : net.edgesIn c c = 0) (htc : net.edgesIn twin c = 0) :
    (net.mergeInto c twin k.outputs).Yields
      (Edit (· = c) (fun o => c ∈ net.inputsOf o) (net.merged c twin) net) := by
  have hout : ∀ b, k.outputs.count b = net.edgesIn c b := by
    intro b; rw [← hb c b, edgesOut, outputsOf_of_get? hk]
  have hlive : ∀ o ∈ k.outputs, net.contains o := fun o ho =>
    hb.contains_target (a := c) (by rwa [outputsOf_of_get? hk])
  have htouched : ∀ o, o ∈ k.outputs → c ∈ net.inputsOf o := fun o ho =>
    hb.mem_iff.mp (by rwa [outputsOf_of_get? hk])
  unfold mergeInto
  refine .bind (merge_release hb ht hlive) fun net1 h1 => ?_
  obtain ⟨hr1, hw1⟩ := h1
  obtain ⟨k1, hk1⟩ := contains_iff.mp ((hr1.contains c).trans (contains_of_get? hk))
  have hin : ∀ a, k1.inputs.count a = net.edgesIn a c := by
    intro a
    rw [← inputsOf_of_get? hk1]
    change net1.edgesIn a c = _
    rw [hw1.ins]
    grind
  refine .bind_ok (get_of_get? hk1) ?_
  refine .bind (merge_detach hw1 (fun i hi => ?_) (fun o => c ∈ net.inputsOf o)) fun net2 h2 => ?_
  · rw [← count_pos_iff, hin] at hi
    exact (hr1.contains i).trans (hb.contains_source (edgesIn_pos.mp hi))
  obtain ⟨hr2, hw2⟩ := h2
  have hr12 := (hr1.mono htouched).trans hr2
  refine .bind (handOver_yields (fun o => c ∈ net.inputsOf o) hw2 ((hr12.contains twin).trans ht) hne
    (fun o ho => (hr12.contains o).trans (hlive o ho)) fun b => ?_)
    fun net3 h3 => .pure ?_
  · rw [hout, if_neg (Ne.symm hne)]
  obtain ⟨hr3, hw3⟩ := h3
  refine (hr12.trans hr3).edit_remove hw3 (fun a b => ?_) fun a b => ?_
  · rw [hout]
    grind [merged]
  · rw [hout, hin]
    grind [merged]

structure Twins (net : Network) (c twin : CompId) : Prop where
  ne : twin ≠ c
  gate : ∃ op : Op, op.isGate = true ∧ net.op? c = some op ∧ net.op? twin = some op
  fed : net.inputsOf c ≠ []
  perm : (net.inputsOf c).Perm (net.inputsOf twin)

section

variable (h : Twins net c twin)
include h

theorem Twins.edgesIn_eq (a : CompId) : net.edgesIn a twin = net.edgesIn a c := (h.perm.count_eq a).symm

theorem Twins.fed_twin : net.inputsOf twin ≠ [] := by
  intro hn
  have := h.perm
  rw [hn, perm_nil] at this
  exact h.fed this

theorem Twins.unrelated (ha : net.Acyclic) : net.edgesIn twin c = 0 ∧ net.edgesIn c twin = 0 :=
  ⟨by rw [← h.edgesIn_eq]; exact ha.irrefl twin, by rw [h.edgesIn_eq]; exact ha.irrefl c⟩

section

variable (e : Edit (· = c) (fun o => c ∈ net.inputsOf o) (net.merged c twin) net net')
  (hb : net.Balanced)
include e hb

theorem Twins.progress {keep : List CompId}
    (ha : net.Acyclic) (hs : Solid keep net) : Progress keep 1 net net' := by
  obtain ⟨op, hgate, hop, hopt⟩ := h.gate
  obtain ⟨htc, hct⟩ := h.unrelated ha
  have hrep := replaces_merged net h.ne
  obtain ⟨rank, hrank, -⟩ := ha.exists_rank hb
  -- the twin moves down to where both of them were fed
  have hsound : Sound (· ∈ keep) net net' := by
    refine hrep.sound e hb h.ne (hs.not_mem hop hgate) (fun o ho => ne_nil_of_mem ho)
      (fun a => if a = twin then min (rank twin) (rank c) else rank a) (fun a b hab => ?_)
      (fun v hv => ?_) (not_unread_of_isGate hopt hgate h.fed_twin)
    · obtain ⟨hac, hbc, hor⟩ := (hrep.pos h.ne).mp hab
      have hab' : a ∈ net.inputsOf b ∨ a = twin ∧ c ∈ net.inputsOf b :=
        hor.imp edgesIn_pos.mp (And.imp_right edgesIn_pos.mp)
      have hbt : b = twin → a ≠ twin ∧ rank a < rank c ∧ rank a < rank twin := by
        rintro rfl
        have hmem : a ∈ net.inputsOf b := by
          rcases hab' with hm | ⟨-, hm⟩
          · exact hm
          · rw [← edgesIn_pos] at hm
            omega
        refine ⟨?_, hrank a c (h.perm.mem_iff.mpr hmem), hrank a b hmem⟩
        rintro rfl
        have := ha.irrefl a
        rw [← edgesIn_pos] at hmem
        omega
      have h1 := hrank a b
      have h2 := hrank c b
      grind
    · rw [hv c op hop h.fed, hv twin op hopt h.fed_twin]
      exact op.read_of_mem_iff v fun a => h.perm.mem_iff
  refine hrep.progress e hsound hb ha h.ne hs (contains_of_op? hop) ?_
  rw [routes_of_fed hb ha h.fed, routes_of_fed hb ha h.fed_twin, tally_perm h.perm]

theorem Twins.trim {keep : List CompId} (ht : Trim keep net) : Trim keep net' :=
  (replaces_merged net h.ne).trim e hb h.ne
    (fun _ hac => ⟨twin, h.ne, .inl (h.perm.mem_iff.mp hac)⟩) ht

end

end

end Merge

/-! ## Gates seen so far -/

/-- Where the gate is still there, it has the key under which it was seen, unless one of its inputs
then has gone since. -/
def Recorded (net : Network) (entry : GateKey × CompId) : Prop :=
  ∀ k, net.get? entry.2 = some k →
    gateKey k = entry.1 ∨ ∃ d ∈ entry.1.2, net.contains d = false

theorem Recorded.merged {net net' : Network} {c twin : CompId} {entry : GateKey × CompId}
    (h : Recorded net entry) (e : Edit (· = c) (fun o => c ∈ net.inputsOf o) (net.merged c twin) net net') :
    Recorded net' entry := by
  intro k' hk'
  have hg := e.not_gone (contains_of_get? hk')
  obtain ⟨k, hk, hface⟩ := exists_of_face? (e.face _ hg).symm hk'
  rcases h k hk with hkey | ⟨d, hd, hdead⟩
  · by_cases hc : c ∈ net.inputsOf entry.2
    · -- one of its inputs has just gone
      refine .inr ⟨c, ?_, e.missing c rfl⟩
      rw [← hkey]
      exact CompId.mem_sorted.mpr (by rwa [← inputsOf_of_get? hk])
    · refine .inl ?_
      rw [← hkey, gateKey, gateKey, Prod.mk.injEq]
      refine ⟨by rw [Component.op, Component.op, Component.kind_of_face hface], ?_⟩
      rw [CompId.sorted_eq_sorted_iff, perm_iff_count, ← inputsOf_of_get? hk, ← inputsOf_of_get? hk']
      intro a
      change net'.edgesIn a entry.2 = net.edgesIn a entry.2
      rw [e.wired.ins]
      rw [← edgesIn_pos] at hc
      grind [Network.merged]
  · refine .inr ⟨d, hd, ?_⟩
    by_cases hdc : d = c
    · exact e.missing d hdc
    · rw [e.contains hdc, hdead]

/-- A gate with the key of one that was seen is its twin: its own inputs are all there. -/
theorem Recorded.twins {net : Network} {c twin : CompId} {k : Component}
    (h : Recorded net (gateKey k, twin)) (hb : net.Balanced) (hk : net.get? c = some k)
    (hgate : k.isGate) (hin : k.inputs ≠ []) (hlive : net.contains twin)
    (hne : twin ≠ c) : Twins net c twin := by
  obtain ⟨kt, hkt⟩ := contains_iff.mp hlive
  have hkey : gateKey kt = gateKey k := by
    refine (h kt hkt).resolve_right ?_
    rintro ⟨d, hd, hdead⟩
    have : d ∈ net.inputsOf c := by
      rw [inputsOf_of_get? hk]
      exact CompId.mem_sorted.mp hd
    rw [hb.contains_source this] at hdead
    cases hdead
  rw [gateKey, gateKey, Prod.mk.injEq] at hkey
  refine ⟨hne, ⟨k.op, hgate, op?_of_get? hk, by rw [op?_of_get? hkt, hkey.1]⟩, ?_, ?_⟩
  · rw [inputsOf_of_get? hk]
    exact hin
  · rw [inputsOf_of_get? hk, inputsOf_of_get? hkt]
    exact (CompId.sorted_eq_sorted_iff.mp hkey.2).symm

/-- Sharing merges twins, one pair after the other, and keeps what every merger keeps; `n` counts the
mergers so far. -/
theorem shareGates_keeps {net : Network} (inv : Nat → Network → Prop) (hb : ∀ n net, inv n net → net.Balanced)
    (hself : ∀ n net c twin, inv n net → Twins net c twin → net.edgesIn c c = 0 ∧ net.edgesIn twin c = 0)
    (step : ∀ n net net' c twin, inv n net → Twins net c twin →
      Edit (· = c) (fun o => c ∈ net.inputsOf o) (net.merged c twin) net net' → inv (n + 1) net')
    (h : inv 0 net) : net.shareGates.Yields fun r => inv r.2 r.1 := by
  unfold shareGates
  refine .bind (Checked.total.foldlM (fun rest (s : Network × List (GateKey × CompId) × Nat) =>
    rest.Nodup ∧ inv s.2.2 s.1 ∧ ∀ entry ∈ s.2.1, entry.2 ∉ rest ∧ Recorded s.1 entry)
    (fun c rest s hinv => ?_) net.ids (net, [], 0)
    ⟨nodup_ids net, h, fun _ h => by cases h⟩) fun s hinv => .pure hinv.2.1
  obtain ⟨net1, seen, n⟩ := s
  obtain ⟨hnd, hi, hseen⟩ := hinv
  dsimp only at hi hseen
  obtain ⟨hc, hnd⟩ := nodup_cons.mp hnd
  have hseen' : ∀ entry ∈ seen, entry.2 ∉ rest ∧ Recorded net1 entry := fun entry he =>
    ⟨fun hm => (hseen entry he).1 (mem_cons_of_mem _ hm), (hseen entry he).2⟩
  dsimp only
  cases hk : net1.get? c with
  | none => exact .pure ⟨hnd, hi, hseen'⟩
  | some k =>
    dsimp only
    split
    · exact .pure ⟨hnd, hi, hseen'⟩
    next hgate =>
    simp only [Bool.or_eq_true, Bool.not_eq_true', not_or, Bool.not_eq_false, List.isEmpty_iff] at hgate
    split
    · refine .pure ⟨hnd, hi, fun entry he => ?_⟩
      rcases mem_cons.mp he with rfl | he
      · refine ⟨hc, fun k' hk' => .inl ?_⟩
        rw [hk] at hk'
        cases hk'
        rfl
      · exact hseen' entry he
    next twin hlook =>
    obtain ⟨hlook, hlive⟩ := Option.filter_eq_some_iff.mp hlook
    have hmem : (gateKey k, twin) ∈ seen := by
      obtain ⟨before, after, rfl, -⟩ := lookup_eq_some_iff.mp hlook
      exact mem_append_right _ mem_cons_self
    have hne : twin ≠ c := by
      rintro rfl
      exact (hseen _ hmem).1 mem_cons_self
    have htwins := (hseen _ hmem).2.twins (hb n net1 hi) hk hgate.1 hgate.2 hlive hne
    obtain ⟨hcc, htc⟩ := hself n net1 c twin hi htwins
    refine .bind (mergeInto_yields (hb n net1 hi) hk hlive hne hcc htc) fun net2 e => .pure ⟨hnd, ?_, ?_⟩
    · exact step n net1 net2 c twin hi htwins e
    · exact fun entry he => ⟨(hseen' entry he).1, (hseen' entry he).2.merged e⟩

theorem shareGates_yields {net : Network} {keep : List CompId} (hb : net.Balanced)
    (ha : net.Acyclic) (hs : Solid keep net) :
    net.shareGates.Yields fun r => Progress keep r.2 net r.1 ∧ (Trim keep net → Trim keep r.1) := by
  refine shareGates_keeps (fun n net' => Progress keep n net net' ∧ (Trim keep net → Trim keep net'))
    (fun _ _ h => h.1.balanced) (fun _ net1 c twin h htwins => ?_) (fun _ net1 net2 c twin h htwins e => ?_)
    ⟨.refl hb ha, id⟩
  · exact ⟨h.1.acyclic.irrefl c, (htwins.unrelated h.1.acyclic).1⟩
  · exact ⟨h.1.trans (htwins.progress e h.1.balanced h.1.acyclic (h.1.solid hs)),
      fun ht => htwins.trim e h.1.balanced (h.2 ht)⟩

end GameNet.Network
