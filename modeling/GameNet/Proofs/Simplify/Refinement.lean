import GameNet.Proofs.Circuit

/-!
What a pass of the optimizer may do to a network.

`Refines` is what the passes have in common: whatever is no gate and is still there computes what it
computed, and is otherwise as it was.
-/

namespace GameNet.Network

open List Option

def AtRest (net : Network) (c : CompId) : Prop :=
  ∃ k, net.get? c = some k ∧ k.count = 0 ∧ k.reqTrue = 0

def Still (net net' : Network) (c : CompId) : Prop :=
  net'.bare? c = net.bare? c ∨ net.op? c = some .and ∧ (net.AtRest c → net'.AtRest c)

def Observable (net : Network) (c : CompId) : Prop :=
  (∃ op, net.op? c = some op ∧ op.isGate = false) ∨ net.contains c = true ∧ net.inputsOf c = []

def Unread (net : Network) (c : CompId) : Prop := net.Observable c ∧ net.outputsOf c = []

structure Refines (net net' : Network) : Prop where
  parts : net'.parts = net.parts
  capacity : net.capacity ≤ net'.capacity
  face : ∀ c, net.contains c = true → net'.contains c = true → net'.face? c = net.face? c
  fresh : ∀ c, net'.contains c = true → net.contains c = false →
    net.capacity ≤ c ∧ (net'.op? c = some .and ∨ net'.op? c = some .or) ∧ net'.inputsOf c ≠ [] ∧
      ∀ k, net'.get? c = some k → k.Shaped
  leaf : ∀ c, net.contains c = true → net'.contains c = true → net.inputsOf c = [] →
    net'.inputsOf c = [] ∧ net.Still net' c
  fed : ∀ c, net'.contains c = true → net.inputsOf c ≠ [] → net'.inputsOf c ≠ []
  narrow : ∀ c op, net.op? c = some op → op ≠ .and → op ≠ .or →
    (net.inputsOf c).length ≤ 1 → (net'.inputsOf c).length ≤ 1
  unread : ∀ c, net.Unread c → net'.outputsOf c = []
  values : ∀ v, net.Obeys v →
    ∃ w, net'.Obeys w ∧ ∀ c, net.Observable c → net'.contains c = true → w c = v c

section Refines

variable {net net' net'' : Network} {c : CompId}

theorem contains_of_op? {op : Op} (h : net.op? c = some op) : net.contains c := by
  obtain ⟨k, hk, -⟩ := map_eq_some_iff.mp h
  exact contains_of_get? hk

theorem Observable.contains (h : net.Observable c) : net.contains c := by
  rcases h with ⟨op, hop, -⟩ | ⟨hc, -⟩
  · exact contains_of_op? hop
  · exact hc

theorem lt_capacity_of_contains (h : net.contains c) : c < net.capacity := by
  obtain ⟨k, hk⟩ := contains_iff.mp h
  exact lt_capacity_of_get? hk

theorem Refines.refl (net : Network) : Refines net net where
  parts := rfl
  capacity := Nat.le_refl _
  face _ _ _ := rfl
  fresh c h h' := by rw [h] at h'; cases h'
  leaf _ _ _ hi := ⟨hi, .inl rfl⟩
  fed _ _ hi := hi
  narrow _ _ _ _ _ hl := hl
  unread _ h := h.2
  values v hv := ⟨v, hv, fun _ _ _ => rfl⟩

section

variable (h : Refines net net') {c : CompId}
include h

theorem Refines.op? (hc : net.contains c)
    (hc' : net'.contains c) : net'.op? c = net.op? c := op?_of_face? (h.face c hc hc')

theorem Refines.bare? {op : Op} (hop : net.op? c = some op)
    (hg : op.isGate = false) (hc' : net'.contains c) : net'.bare? c = net.bare? c := by
  obtain ⟨k, hk, rfl⟩ := map_eq_some_iff.mp hop
  obtain ⟨k', hk', hf⟩ := exists_of_face? (h.face c (contains_of_op? hop) hc') hk
  rw [Network.bare?, Network.bare?, hk, hk', map_some, map_some,
    ← Component.bare_of_face hf.symm hg]

theorem Refines.source (hc' : net'.contains c)
    (hi : net'.inputsOf c = []) : net.contains c ∧ net.inputsOf c = [] := by
  constructor
  · by_contra hc
    rw [Bool.not_eq_true] at hc
    exact (h.fresh c hc' hc).2.2.1 hi
  · by_contra hne
    exact h.fed c hc' hne hi

/-- Numbers are not given out twice, so what is gone stays gone. -/
theorem Refines.contains_mid (h' : Refines net' net'')
    (hc : net.contains c) (hc' : net''.contains c) : net'.contains c := by
  by_contra hn
  rw [Bool.not_eq_true] at hn
  have hle : net.capacity ≤ c := h.capacity.trans (h'.fresh c hc' hn).1
  exact Nat.not_lt_of_le hle (lt_capacity_of_contains hc)

theorem Refines.observable (hc : net.Observable c) (hc' : net'.contains c) : net'.Observable c := by
  have hlive := hc.contains
  rcases hc with ⟨op, hop, hg⟩ | ⟨hc, hi⟩
  · exact .inl ⟨op, by rw [h.op? hlive hc', hop], hg⟩
  · exact .inr ⟨hc', (h.leaf c hc hc' hi).1⟩

end

theorem Still.trans (h : net.Still net' c) (h' : net'.Still net'' c)
    (hop : net'.op? c = net.op? c) : net.Still net'' c := by
  have rests : ∀ {a b : Network}, b.bare? c = a.bare? c → a.AtRest c → b.AtRest c := by
    rintro a b hb ⟨k, hk, h0, h1⟩
    rw [bare?, bare?, hk, map_some] at hb
    obtain ⟨k', hk', hbb⟩ := map_eq_some_iff.mp hb
    exact ⟨k', hk', (congrArg Component.count hbb).trans h0, (congrArg Component.reqTrue hbb).trans h1⟩
  rcases h with h | ⟨hand, h⟩
  · rcases h' with h' | ⟨hand', h'⟩
    · exact .inl (h'.trans h)
    · exact .inr ⟨hop ▸ hand', fun hr => h' (rests h hr)⟩
  · rcases h' with h' | ⟨-, h'⟩
    · exact .inr ⟨hand, fun hr => rests h' (h hr)⟩
    · exact .inr ⟨hand, fun hr => h' (h hr)⟩

theorem Refines.trans (h : Refines net net') (h' : Refines net' net'') : Refines net net'' where
  parts := h'.parts.trans h.parts
  capacity := h.capacity.trans h'.capacity
  face c hc hc'' := by
    have hc' := h.contains_mid h' hc hc''
    exact (h'.face c hc' hc'').trans (h.face c hc hc')
  fresh c hc'' hc := by
    by_cases hc' : net'.contains c
    · obtain ⟨hcap, hop, hi, hs⟩ := h.fresh c hc' hc
      refine ⟨hcap, by rwa [h'.op? hc' hc''], h'.fed c hc'' hi, fun k hk => ?_⟩
      obtain ⟨k', hk', hf⟩ := exists_of_face? (h'.face c hc' hc'').symm hk
      exact (hs k' hk').of_face hf.symm
    · obtain ⟨hcap, hop, hi, hs⟩ := h'.fresh c hc'' (by rwa [Bool.not_eq_true] at hc')
      exact ⟨h.capacity.trans hcap, hop, hi, hs⟩
  leaf c hc hc'' hi := by
    have hc' := h.contains_mid h' hc hc''
    obtain ⟨hi', hs⟩ := h.leaf c hc hc' hi
    obtain ⟨hi'', hs'⟩ := h'.leaf c hc' hc'' hi'
    exact ⟨hi'', hs.trans hs' (h.op? hc hc')⟩
  fed c hc'' hi := by
    have hc' := h.contains_mid h' (contains_of_fed hi) hc''
    exact h'.fed c hc'' (h.fed c hc' hi)
  narrow c op hop hand hor hl := by
    by_cases hc'' : net''.contains c
    · have hc' := h.contains_mid h' (contains_of_op? hop) hc''
      exact h'.narrow c op (by rw [h.op? (contains_of_op? hop) hc', hop]) hand hor
        (h.narrow c op hop hand hor hl)
    · rw [Bool.not_eq_true, ← get?_eq_none_iff] at hc''
      simp [inputsOf, hc'']
  unread c hc := by
    by_cases hc'' : net''.contains c
    · have hc' := h.contains_mid h' hc.1.contains hc''
      exact h'.unread c ⟨h.observable hc.1 hc', h.unread c hc⟩
    rw [Bool.not_eq_true, ← get?_eq_none_iff] at hc''
    rw [outputsOf, hc'']
    rfl
  values v hv := by
    obtain ⟨w, hw, hwv⟩ := h.values v hv
    obtain ⟨u, hu, huw⟩ := h'.values w hw
    refine ⟨u, hu, fun c hc hc'' => ?_⟩
    have hc' := h.contains_mid h' hc.contains hc''
    rw [huw c (h.observable hc hc') hc'', hwv c hc hc']

end Refines

/-! ## Sound steps -/

structure Sound (keep : CompId → Prop) (net net' : Network) : Prop extends Refines net net' where
  balanced : net'.Balanced
  acyclic : net'.Acyclic
  keeps : ∀ c, keep c → net.contains c = true → net'.contains c = true

section Sound

variable {keep : CompId → Prop} {net net' net'' : Network} {c : CompId}

theorem Sound.refl (hb : net.Balanced) (ha : net.Acyclic) : Sound keep net net :=
  { Refines.refl net with balanced := hb, acyclic := ha, keeps := fun _ _ hc => hc }

theorem Sound.trans (h : Sound keep net net') (h' : Sound keep net' net'') : Sound keep net net'' :=
  { h.toRefines.trans h'.toRefines with
    balanced := h'.balanced
    acyclic := h'.acyclic
    keeps := fun c hk hc => h'.keeps c hk (h.keeps c hk hc) }

theorem Sound.eval_eq (h : Sound keep net net') (hb : net.Balanced) (ha : net.Acyclic)
    (σ : CompId → Bool) (hc : net.Observable c) (hc' : net'.contains c) : net'.eval σ c = net.eval σ c := by
  obtain ⟨w, hw, hwv⟩ := h.values _ (obeys_eval hb ha σ)
  rw [← hwv c hc hc']
  refine (hw.eq_eval h.balanced h.acyclic (fun d hd hi => ?_) c hc').symm
  obtain ⟨hd0, hi0⟩ := h.source hd hi
  rw [hwv d (.inr ⟨hd0, hi0⟩) hd, eval_of_source σ hi0]

theorem Sound.eval_eq_of_obeys (h : Sound (fun _ => True) net net')
    (hobeys : ∀ v, net'.Obeys v → net.Obeys v) (hb : net.Balanced) (ha : net.Acyclic)
    (σ : CompId → Bool) (hc : net.contains c) : net'.eval σ c = net.eval σ c := by
  refine (hobeys _ (obeys_eval h.balanced h.acyclic σ)).eq_eval hb ha (fun d hd hi => ?_) c hc
  exact eval_of_source σ (h.leaf d hd (h.keeps d trivial hd) hi).1

theorem Unread.edgesIn (h : net.Unread c) (hb : net.Balanced) (b : CompId) : net.edgesIn c b = 0 := by
  rw [← hb c b, edgesOut, h.2]
  rfl

theorem not_unread_of_isGate {op : Op} (hop : net.op? c = some op)
    (hg : op.isGate) (hi : net.inputsOf c ≠ []) : ¬ net.Unread c := by
  rintro ⟨⟨op', hop', hg'⟩ | ⟨-, hnil⟩, -⟩
  · rw [hop] at hop'
    cases hop'
    rw [hg] at hg'
    cases hg'
  · exact hi hnil

theorem not_unread_of_mem {c b : CompId} (hb : net.Balanced) (h : c ∈ net.inputsOf b) : ¬ net.Unread c := by
  intro hc
  rw [← edgesIn_pos, hc.edgesIn hb b] at h
  omega

end Sound

/-! ## Edits -/

structure Edit (gone touched : CompId → Prop) (edges : CompId → CompId → Nat)
    (net net' : Network) : Prop where
  parts : net'.parts = net.parts
  capacity : net'.capacity = net.capacity
  missing : ∀ c, gone c → net'.contains c = false
  face : ∀ c, ¬ gone c → net'.face? c = net.face? c
  bare : ∀ c, ¬ gone c → ¬ touched c → net'.bare? c = net.bare? c
  wired : Wired net' edges edges

section Edits

variable {keep gone touched : CompId → Prop} {edges : CompId → CompId → Nat}
  {net net' : Network} {c : CompId}

theorem Rewires.edit (h : Rewires touched net net') (hw : Wired net' edges edges) :
    Edit (fun _ => False) touched edges net net' where
  parts := h.parts
  capacity := h.capacity
  missing _ hc := hc.elim
  face c _ := h.face c
  bare c _ := h.bare c
  wired := hw

theorem Rewires.edit_remove {ins outs : CompId → CompId → Nat} (h : Rewires touched net net')
    (hw : Wired net' ins outs) (hi : ∀ x y, (if y = c then 0 else ins x y) = edges x y)
    (ho : ∀ x y, (if x = c then 0 else outs x y) = edges x y) :
    Edit (· = c) touched edges net (net'.remove c) where
  parts := h.parts
  capacity := by
    rw [← h.capacity]
    exact Array.size_modify
  missing d hd := by rw [Network.contains, get?_remove, if_pos hd]; rfl
  face d hd := by rw [← h.face d, face?, face?, get?_remove, if_neg hd]
  bare d hd ht := by rw [← h.bare d ht, bare?, bare?, get?_remove, if_neg hd]
  wired := (hw.remove c).congr hi ho

theorem Rewires.edit_of_remove (h : Rewires touched (net.remove c) net')
    (hw : Wired net' edges edges) : Edit (· = c) touched edges net net' where
  parts := h.parts
  capacity := h.capacity.trans Array.size_modify
  missing d hd := by rw [h.contains, Network.contains, get?_remove, if_pos hd]; rfl
  face d hd := by rw [h.face d, face?, face?, get?_remove, if_neg hd]
  bare d hd ht := by rw [h.bare d ht, bare?, bare?, get?_remove, if_neg hd]
  wired := hw

theorem Edit.contains (e : Edit gone touched edges net net') (hc : ¬ gone c) :
    net'.contains c = net.contains c := contains_of_face? (e.face c hc)

theorem Edit.rewires {net'' : Network} {edges' : CompId → CompId → Nat}
    (e : Edit gone touched edges net net') (h : Rewires touched net' net'')
    (hw : Wired net'' edges' edges') : Edit gone touched edges' net net'' where
  parts := h.parts.trans e.parts
  capacity := h.capacity.trans e.capacity
  missing c hc := (h.contains c).trans (e.missing c hc)
  face c hc := (h.face c).trans (e.face c hc)
  bare c hc ht := (h.bare c ht).trans (e.bare c hc ht)
  wired := hw

theorem Edit.not_gone (e : Edit gone touched edges net net') (hc : net'.contains c) : ¬ gone c := by
  intro hg
  rw [e.missing c hg] at hc
  cases hc

theorem length_inputsOf_le_one (hw : Wired net edges edges) (c : CompId) : (net.inputsOf c).length ≤ 1 ↔
      ∀ a b, 0 < edges a c → 0 < edges b c → a = b ∧ edges a c = 1 := by
  simp only [← hw.ins, edgesIn]
  constructor
  · intro hl a b ha hb
    rcases hn : net.inputsOf c with _ | ⟨x, _ | ⟨y, l⟩⟩
    · rw [hn] at ha
      cases ha
    · rw [hn, count_pos_iff, mem_singleton] at ha hb
      subst ha hb
      exact ⟨rfl, count_singleton_self⟩
    · rw [hn] at hl
      simp at hl
  · intro h
    rcases hn : net.inputsOf c with _ | ⟨x, _ | ⟨y, l⟩⟩
    · simp
    · simp
    rw [hn] at h
    obtain ⟨rfl, h1⟩ := h x y (by simp) (by simp)
    simp at h1

/-- When an edit is sound: ranks, what has inputs and how many, and what is read. -/
theorem Edit.sound (e : Edit gone touched edges net net') (hkeep : ∀ c, keep c → ¬ gone c)
    (rank : CompId → Nat) (hrank : ∀ a b, 0 < edges a b → rank a < rank b)
    (hstill : ∀ c, touched c → net.inputsOf c = [] → net.Still net' c)
    (hleaf : ∀ c, ¬ gone c → net.inputsOf c = [] → ∀ a, edges a c = 0)
    (hfed : ∀ c, ¬ gone c → net.inputsOf c ≠ [] → ∃ a, 0 < edges a c)
    (hnarrow : ∀ c op, ¬ gone c → net.op? c = some op → op ≠ .and → op ≠ .or →
      (net.inputsOf c).length ≤ 1 → ∀ a b, 0 < edges a c → 0 < edges b c → a = b ∧ edges a c = 1)
    (hread : ∀ v, net.Obeys v → ∀ c op, ¬ gone c → net.op? c = some op → net.inputsOf c ≠ [] →
      ∀ inputs, (∀ a, a ∈ inputs ↔ 0 < edges a c) → op.read inputs v = op.read (net.inputsOf c) v)
    (hunread : ∀ a, net.Unread a → ∀ b, edges a b = 0) : Sound keep net net' where
  parts := e.parts
  capacity := e.capacity.ge
  face c _ hc' := e.face c (e.not_gone hc')
  fresh c hc' hc := by
    rw [e.contains (e.not_gone hc'), hc] at hc'
    cases hc'
  leaf c _ hc' hi := by
    have hg := e.not_gone hc'
    refine ⟨eq_nil_iff_forall_not_mem.mpr fun a ha => ?_, ?_⟩
    · have := hleaf c hg hi a
      have := e.wired.mem_inputsOf.mp ha
      omega
    · by_cases ht : touched c
      · exact hstill c ht hi
      · exact .inl (e.bare c hg ht)
  fed c hc' hi := by
    obtain ⟨a, ha⟩ := hfed c (e.not_gone hc') hi
    exact ne_nil_of_mem (e.wired.mem_inputsOf.mpr ha)
  narrow c op hop hand hor hl := by
    by_cases hg : gone c
    · have hn := get?_eq_none_iff.mpr (e.missing c hg)
      simp [inputsOf, hn]
    · exact (length_inputsOf_le_one e.wired c).mpr (hnarrow c op hg hop hand hor hl)
  unread c hc := eq_nil_iff_forall_not_mem.mpr fun b hcb => by
    have := hunread c hc b
    have := e.wired.mem_outputsOf.mp hcb
    omega
  values v hv := by
    refine ⟨v, fun c op hop hi => ?_, fun _ _ _ => rfl⟩
    have hg := e.not_gone (contains_of_op? hop)
    have hop0 : net.op? c = some op := by rw [← op?_of_face? (e.face c hg)]; exact hop
    have hi0 : net.inputsOf c ≠ [] := by
      intro h0
      obtain ⟨a, ha⟩ := exists_mem_of_ne_nil _ hi
      have := hleaf c hg h0 a
      have := e.wired.mem_inputsOf.mp ha
      omega
    rw [hread v hv c op hg hop0 hi0 _ fun a => e.wired.mem_inputsOf]
    exact hv c op hop0 hi0
  balanced := e.wired.balanced
  acyclic := Ranked.acyclic fun a b hab => hrank a b (e.wired.mem_inputsOf.mp hab)
  keeps c hk hc := (e.contains (hkeep c hk)).trans hc

end Edits

/-! ## Counting a gate anew -/

theorem refresh_yields (touched : CompId → Prop) {net : Network} {ins outs : CompId → CompId → Nat}
    {c : CompId} (h : Wired net ins outs) (hc : net.contains c)
    (hi : ∀ i ∈ net.inputsOf c, net.contains i) (ht : touched c) :
    (net.refresh c).Yields fun net' => Rewires touched net net' ∧ Wired net' ins outs ∧
      (net.op? c = some .and → net.inputsOf c = [] → net'.AtRest c) := by
  obtain ⟨k, hk⟩ := contains_iff.mp hc
  rw [inputsOf_of_get? hk] at hi ⊢
  unfold refresh
  refine .bind_ok (get_of_get? hk) ?_
  have hcount : (k.inputs.foldlM (fun n i => do return if (← net.get i).value then n + 1 else n)
      (0 : Int) : Checked Int).Yields fun n => k.inputs = [] → n = 0 := by
    refine .mono (Checked.total.countM Component.value (p := fun i => (net.get? i).any Component.value)
      k.inputs fun i hmem => ?_) fun n hn hnil => ?_
    · obtain ⟨ki, hki⟩ := contains_iff.mp (hi i hmem)
      exact ⟨ki, get_of_get? hki, by rw [hki]; rfl⟩
    · rw [hn, hnil]
      rfl
  refine .bind hcount fun n hn => .pure ⟨?_, ?_, fun hand hnil => ?_⟩
  · refine rewires_modify_touched (fun k' => ?_) net ht
    obtain ⟨-, -, -, hface⟩ := k'.fitThresholds_keeps
    dsimp only
    split
    · next hg => rw [← hface]; exact Component.face_eq_of_isGate hg rfl rfl rfl fun _ => ⟨rfl, rfl⟩
    · exact hface
  · refine h.modify_of_eq c (fun k' => ?_) fun k' => ?_
    · dsimp only
      split <;> exact k'.fitThresholds_keeps.1
    · dsimp only
      split <;> exact k'.fitThresholds_keeps.2.1
  · rw [op?_of_get? hk, Option.some.injEq] at hand
    refine ⟨_, by rw [get?_modify, if_pos rfl, hk]; rfl, ?_⟩
    have hkind := Component.kind_of_and hand
    simp only [Component.fitThresholds, hkind, hnil, hn hnil]
    exact ⟨rfl, rfl⟩

/-! ## Sweeps -/

/-- A sweep keeps what its visits keep; `n` counts the changes so far. -/
theorem sweep_yields {visit : Network → CompId → Component → Checked (Option Network)}
    (inv : Nat → Network → Prop) (step : ∀ n net c k, inv n net → net.get? c = some k →
      (visit net c k).Yields fun r => ∀ net', r = some net' → inv (n + 1) net')
    {net : Network} (h : inv 0 net) : (net.sweep visit).Yields fun r => inv r.2 r.1 := by
  unfold sweep
  refine Checked.total.foldlM (fun _ s => inv s.2 s.1) (fun c _ s hs => ?_) net.ids (net, 0) h
  obtain ⟨net1, n⟩ := s
  dsimp only
  cases hk : net1.get? c with
  | none => exact .pure hs
  | some k =>
    refine Checked.Yields.bind (step n net1 c k hs hk) fun r hr => ?_
    cases r with
    | none => exact .pure hs
    | some net2 => exact .pure (hr net2 rfl)

end GameNet.Network
