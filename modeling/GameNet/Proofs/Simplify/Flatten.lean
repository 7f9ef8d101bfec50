import GameNet.Proofs.Simplify.PassThrough
import GameNet.Simplify.Flatten

/-!
Double negations, and gates that feed gates of their own kind only.
-/

namespace GameNet.Network

open List

/-! ## Double negations -/

section DoubleNegation

variable {net : Network} {c x : CompId} {k : Component}

structure DoublyNegates (net : Network) (c x : CompId) : Prop where
  isNot : net.op? c = some .not
  inner : ∃ i, net.inputsOf c = [i] ∧ net.op? i = some .not ∧ net.inputsOf i = [x]

theorem doublyNegated?_yields (hb : net.Balanced) (hk : net.get? c = some k) :
    (net.doublyNegated? c k).Yields fun r => ∀ x, r = some x → DoublyNegates net c x ∧ x ≠ c := by
  unfold doublyNegated?
  have skip : (pure none : Checked (Option CompId)).Yields fun r =>
      ∀ x, r = some x → DoublyNegates net c x ∧ x ≠ c := .pure fun _ h => by cases h
  split
  · exact skip
  next hcond =>
  simp only [Bool.or_eq_true, decide_eq_true_eq, not_or, ne_eq, Decidable.not_not] at hcond
  split
  case h_2 => exact skip
  next i hi =>
  have hic : net.inputsOf c = [i] := by rw [inputsOf_of_get? hk, hi]
  obtain ⟨ik, hik⟩ := contains_iff.mp
    (hb.contains_source (a := i) (b := c) (by rw [hic]; exact mem_singleton_self i))
  refine .bind_ok (get_of_get? hik) ?_
  split
  case h_2 => exact skip
  next y hnot hy =>
  refine .pure fun x hx => ?_
  split at hx
  · cases hx
  next hguard =>
  cases hx
  refine ⟨⟨by rw [op?_of_get? hk, hcond.1], i, hic, ?_, by rw [inputsOf_of_get? hik, hy]⟩, ?_⟩
  · rw [op?_of_get? hik, of_decide_eq_true hnot]
  · rintro rfl
    simp at hguard

theorem DoublyNegates.contains (h : DoublyNegates net c x) (hb : net.Balanced) : net.contains x := by
  obtain ⟨-, i, -, -, hxi⟩ := h
  exact hb.contains_source (b := i) (by rw [hxi]; exact mem_singleton_self x)

theorem linkEach_yields {ins outs : CompId → CompId → Nat} {os : List CompId} (h : Wired net ins outs)
    (hx : net.contains x) (ho : ∀ o ∈ os, net.contains o) :
    (os.foldlM (fun net o => net.link x o) net : Checked Network).Yields fun net' =>
      Rewires (fun _ => False) net net' ∧ Wired net' (fun a b => ins a b + if a = x then os.count b else 0)
        (fun a b => outs a b + if a = x then os.count b else 0) := by
  apply foldlM_rewires (fun _ => False) os
  · exact h.congr (fun a b => by simp) fun a b => by simp
  intro done o net' hmem _ hr hw
  refine (link_yields _ hw ((hr.contains x).trans hx) ((hr.contains o).trans (ho o hmem))).mono
    fun net1 h1 => ⟨h1.1, h1.2.congr (fun a b => ?_) fun a b => ?_⟩ <;> grind [arrow]

theorem bypass_yields (hb : net.Balanced) (hcc : net.edgesIn c c = 0) (hk : net.get? c = some k)
    (hx : net.contains x) (hne : x ≠ c) :
    (do
      let net ← net.isolate c
      let net ← k.outputs.foldlM (fun net o => net.link x o) net
      return some (net.remove c) : Checked (Option Network)).Yields fun r =>
      ∃ net', r = some net' ∧ Edit (· = c) (fun _ => False) (net.bypassed c x) net net' := by
  have hout : ∀ b, net.edgesIn c b = k.outputs.count b := by
    intro b; rw [← hb c b, edgesOut, outputsOf_of_get? hk]
  refine .bind (isolate_yields (fun _ => False) hb (contains_of_get? hk)) fun net1 h1 => ?_
  obtain ⟨hr1, hw1⟩ := h1
  refine .bind (linkEach_yields hw1 ((hr1.contains x).trans hx) fun o ho => (hr1.contains o).trans ?_)
    fun net2 h2 => .pure ⟨_, rfl, (hr1.trans h2.1).edit_remove h2.2 (fun a b => ?_) fun a b => ?_⟩
  · exact hb.contains_target (a := c) (by rwa [outputsOf_of_get? hk])
  · grind [bypassed]
  · grind [bypassed]

theorem DoublyNegates.progress {net' : Network} {keep : List CompId} (h : DoublyNegates net c x)
    (e : Edit (· = c) (fun _ => False) (net.bypassed c x) net net') (hb : net.Balanced)
    (ha : net.Acyclic) (hs : Solid keep net) (hne : x ≠ c) : Progress keep 1 net net' := by
  obtain ⟨hop, i, hic, hopi, hxi⟩ := h
  have hrep := replaces_bypassed net hne
  obtain ⟨rank, hrank, -⟩ := ha.exists_rank hb
  have hxc : rank x < rank c :=
    (hrank x i (by rw [hxi]; exact mem_singleton_self x)).trans
      (hrank i c (by rw [hic]; exact mem_singleton_self i))
  refine hrep.progress e (hrep.sound e hb hne (hs.not_mem hop rfl) (fun _ h => h.elim) rank
    (fun a b hab => ?_) (fun v hv => ?_)
    (not_unread_of_mem hb (b := i) (by rw [hxi]; exact mem_singleton_self x)))
    hb ha hne hs (contains_of_op? hop) ?_
  · obtain ⟨-, -, hab | ⟨rfl, hcb⟩⟩ := (hrep.pos hne).mp hab
    · exact hrank a b (edgesIn_pos.mp hab)
    · exact hxc.trans (hrank c b (edgesIn_pos.mp hcb))
  · rw [hv c .not hop (by simp [hic]), hic, Op.read_not_singleton, hv i .not hopi (by simp [hxi]),
      hxi, Op.read_not_singleton, Bool.not_not]
  · rw [routes_of_fed hb ha (c := c) (by simp [hic]), hic, tally_cons,
      routes_of_fed hb ha (c := i) (by simp [hxi]), hxi]
    simp

end DoubleNegation

theorem removeDoubleNegations_yields {net : Network} {keep : List CompId} (hb : net.Balanced)
    (ha : net.Acyclic) (hs : Solid keep net) :
    net.removeDoubleNegations.Yields fun r => Progress keep r.2 net r.1 := by
  refine (sweep_progress (fun _ => True) (fun net1 c k hb ha hs _ hk => ?_) hb ha hs trivial).mono
    fun r hr => hr.1
  refine .bind (doublyNegated?_yields hb hk) fun r hr => ?_
  cases r with
  | none => exact .pure fun _ h => by cases h
  | some x =>
    obtain ⟨hd, hne⟩ := hr x rfl
    refine (bypass_yields hb (ha.irrefl c) hk (hd.contains hb) hne).mono fun r hr net3 h => ?_
    obtain ⟨net2, hr2, e⟩ := hr
    rw [hr2] at h
    cases h
    exact ⟨hd.progress e hb ha hs hne, trivial⟩

/-! ## Gates of one kind in a row -/

def flattened (net : Network) (c a b : CompId) : Nat :=
  if a = c ∨ b = c then 0
  else if 0 < net.edgesIn c b ∧ 0 < net.edgesIn a c then max 1 (net.edgesIn a b)
  else net.edgesIn a b

section Flatten

variable {net net' : Network} {c : CompId} {k : Component} {op : Op}

theorem linkMissing_yields {edges : CompId → CompId → Nat} {inputs : List CompId} {o : CompId}
    (h : Wired net edges edges) (hi : ∀ i ∈ inputs, net.contains i) (ho : net.contains o) :
    (net.linkMissing inputs o).Yields fun net' => Rewires (fun _ => False) net net' ∧
      Wired net' (fun a b => if b = o ∧ a ∈ inputs then max 1 (edges a b) else edges a b)
        (fun a b => if b = o ∧ a ∈ inputs then max 1 (edges a b) else edges a b) := by
  unfold linkMissing
  apply foldlM_rewires (fun _ => False) inputs
  · exact h.congr (fun a b => by simp) fun a b => by simp
  intro done i net' hmem _ hr hw
  have ho' := (hr.contains o).trans ho
  obtain ⟨k, hk⟩ := contains_iff.mp ho'
  have hm := hw.mem_inputsOf (a := i) (b := o)
  refine .bind_ok (get_of_get? hk) ?_
  rw [← inputsOf_of_get? hk]
  by_cases hio : i ∈ net'.inputsOf o
  · rw [if_pos (by simpa using hio)]
    have hpos := hm.mp hio
    refine .pure ⟨.refl _ _, hw.congr (fun a b => ?_) fun a b => ?_⟩ <;> grind
  rw [if_neg (by simpa using hio)]
  have hz := Nat.eq_zero_of_not_pos (hm.not.mp hio)
  refine (link_yields _ hw ((hr.contains i).trans (hi i hmem)) ho').mono
    fun net1 h1 => ⟨h1.1, h1.2.congr (fun a b => ?_) fun a b => ?_⟩ <;> grind [arrow]

theorem mergesForward_yields (hb : net.Balanced) (hk : net.get? c = some k) :
    (net.mergesForward op c k).Yields fun r => r = true →
      (k.op = op ∧ k.inputs ≠ [] ∧ ∀ o ∈ k.outputs, net.op? o = some op) ∧ c ∉ k.outputs := by
  unfold mergesForward
  split
  · exact .pure fun h => by cases h
  next hcond =>
  simp only [Bool.or_eq_true, decide_eq_true_eq, not_or, ne_eq, Decidable.not_not,
    List.isEmpty_iff] at hcond
  have hall : (k.outputs.allM fun o => do return decide ((← net.op o) = op) : Checked Bool) =
      .ok (k.outputs.all fun o => decide (net.op? o = some op)) := by
    refine Checked.allM_yields _ fun o ho => ?_
    obtain ⟨ko, hko⟩ := contains_iff.mp
      (hb.contains_target (a := c) (b := o) (by rwa [outputsOf_of_get? hk]))
    rw [Network.op, get_of_get? hko, op?_of_get? hko]
    simp [pure, Except.pure, bind, Except.bind]
  refine .bind_ok hall (.pure fun h => ?_)
  rw [Bool.and_eq_true, all_eq_true] at h
  refine ⟨⟨hcond.1.1, hcond.2, fun o ho => of_decide_eq_true (h.1 o ho)⟩, fun hc => ?_⟩
  simp only [Bool.not_eq_true', any_eq_false, Bool.or_eq_true, beq_iff_eq, not_or] at h
  exact (h.2 c hc).1 rfl

theorem linkMissing_fold {edges : CompId → CompId → Nat} {inputs outputs : List CompId}
    (h : Wired net edges edges) (hsrc : ∀ a b, 0 < edges a b → net.contains a)
    (hi : ∀ i ∈ inputs, net.contains i) (ho : ∀ o ∈ outputs, net.contains o) :
    (outputs.foldlM (fun net o => do (← net.linkMissing inputs o).refresh o) net :
      Checked Network).Yields fun net' => Rewires (· ∈ outputs) net net' ∧
        Wired net' (fun a b => if b ∈ outputs ∧ a ∈ inputs then max 1 (edges a b) else edges a b)
          (fun a b => if b ∈ outputs ∧ a ∈ inputs then max 1 (edges a b) else edges a b) := by
  apply foldlM_rewires (· ∈ outputs) outputs
  · exact h.congr (fun a b => by simp) fun a b => by simp
  intro done o net' hmem _ hr hw
  have hol := (hr.contains o).trans (ho o hmem)
  refine .bind (linkMissing_yields hw (fun i hm => (hr.contains i).trans (hi i hm)) hol) fun net1 h1 => ?_
  obtain ⟨hr1, hw1⟩ := h1
  refine (refresh_yields (· ∈ outputs) hw1 ((hr1.contains o).trans hol) (fun i hio => ?_) hmem).mono
    fun net2 h2 => ⟨(hr1.mono fun _ h => h.elim).trans h2.1, h2.2.1.congr (fun a b => ?_) fun a b => ?_⟩
  · rw [hr1.contains, hr.contains]
    have hpos := hw1.mem_inputsOf.mp hio
    have h1 := hsrc i o
    have h2 := hi i
    grind
  · grind
  · grind

theorem flatten_step (hb : net.Balanced) (hcc : net.edgesIn c c = 0) (hk : net.get? c = some k) :
    (do
      let net := (← net.isolate c).remove c
      let net ← (CompId.sortedSet k.outputs).foldlM (fun net o => do
        (← net.linkMissing (CompId.sortedSet k.inputs) o).refresh o) net
      return some net : Checked (Option Network)).Yields fun r =>
      ∃ net', r = some net' ∧
        Edit (· = c) (fun o => c ∈ net.inputsOf o) (net.flattened c) net net' := by
  have hin : ∀ a, a ∈ CompId.sortedSet k.inputs ↔ 0 < net.edgesIn a c := by
    intro a
    rw [CompId.mem_sortedSet, edgesIn_pos, inputsOf_of_get? hk]
  have hout : ∀ b, b ∈ CompId.sortedSet k.outputs ↔ 0 < net.edgesIn c b := by
    intro b
    rw [CompId.mem_sortedSet, edgesIn_pos, ← hb.mem_iff, outputsOf_of_get? hk]
  refine .bind (isolate_yields (fun o => c ∈ net.inputsOf o) hb (contains_of_get? hk)) fun net1 h1 => ?_
  obtain ⟨hr1, hw1⟩ := h1
  have e1 : Edit (· = c) (fun o => c ∈ net.inputsOf o)
      (fun a b => if a = c ∨ b = c then 0 else net.edgesIn a b) net (net1.remove c) :=
    hr1.edit_remove hw1 (fun a b => by grind) fun a b => by grind
  have live : ∀ a, a ≠ c → net.contains a → (net1.remove c).contains a = true :=
    fun a hac h => (e1.contains hac).trans h
  refine .bind (linkMissing_fold e1.wired (fun a b hab => ?_) (fun a h => ?_) fun b h => ?_)
    fun net' h' => .pure ⟨_, rfl, e1.rewires (h'.1.mono fun o ho => ?_)
      (h'.2.congr (fun a b => ?_) fun a b => ?_)⟩
  · have hpos : a ≠ c ∧ 0 < net.edgesIn a b := by grind
    exact live a hpos.1 (hb.contains_source (edgesIn_pos.mp hpos.2))
  · have hpos := (hin a).mp h
    exact live a (by rintro rfl; omega) (hb.contains_source (edgesIn_pos.mp hpos))
  · have hpos := (hout b).mp h
    exact live b (by rintro rfl; omega) (contains_of_mem_inputsOf (edgesIn_pos.mp hpos))
  · exact edgesIn_pos.mp ((hout o).mp ho)
  · have := hin a
    have := hout b
    grind [flattened]
  · have := hin a
    have := hout b
    grind [flattened]

theorem flattened_pos {a b : CompId} : 0 < net.flattened c a b ↔ a ≠ c ∧ b ≠ c ∧
      (0 < net.edgesIn a b ∨ 0 < net.edgesIn c b ∧ 0 < net.edgesIn a c) := by
  grind [flattened]

theorem read_flattened (hop : op = .and ∨ op = .or) {v : CompId → Bool} {b : CompId}
    {inputs : List CompId} (hcc : net.edgesIn c c = 0) (hi : ∀ a, a ∈ inputs ↔ 0 < net.flattened c a b)
    (hb : b ≠ c) (hcb : c ∈ net.inputsOf b) (hv : v c = op.read (net.inputsOf c) v) :
    op.read inputs v = op.read (net.inputsOf b) v := by
  have hself : c ∉ net.inputsOf c := by
    rw [← edgesIn_pos]
    omega
  refine (Op.read_nested hop (R := fun a => a ≠ c ∧ a ∈ net.inputsOf b) hv (fun a => ?_) fun a => ?_).symm
  · grind
  rw [hi, flattened_pos, ← edgesIn_pos, ← edgesIn_pos]
  have := edgesIn_pos.mpr hcb
  grind [edgesIn_pos]

theorem flatten_sound {keep : CompId → Prop} (hop : op = .and ∨ op = .or)
    (e : Edit (· = c) (fun o => c ∈ net.inputsOf o) (net.flattened c) net net') (hb : net.Balanced)
    (ha : net.Acyclic) (hkeep : ¬ keep c) (hc : net.op? c = some op) (hi : net.inputsOf c ≠ [])
    (ho : ∀ o, c ∈ net.inputsOf o → net.op? o = some op) : Sound keep net net' := by
  have hcc := ha.irrefl c
  obtain ⟨rank, hrank, -⟩ := ha.exists_rank hb
  refine e.sound (fun d hd hdc => hkeep (hdc ▸ hd)) rank ?rank ?still ?leaf ?fed ?narrow ?read ?unread
  case rank =>
    intro a b hab
    obtain ⟨-, -, hab | ⟨hcb, hac⟩⟩ := flattened_pos.mp hab
    · exact hrank a b (edgesIn_pos.mp hab)
    · exact (hrank a c (edgesIn_pos.mp hac)).trans (hrank c b (edgesIn_pos.mp hcb))
  case still =>
    intro o hco hio
    exact absurd hio (ne_nil_of_mem hco)
  case leaf =>
    intro b _ hib a
    have none : ∀ a, net.edgesIn a b = 0 := fun a => by rw [edgesIn, hib]; rfl
    have h1 := none a
    have h2 := none c
    grind [flattened]
  case fed =>
    intro b hbc hib
    obtain ⟨a, hab⟩ := exists_mem_of_ne_nil _ hib
    by_cases hac : a = c
    · subst hac
      obtain ⟨i, hia⟩ := exists_mem_of_ne_nil _ hi
      refine ⟨i, flattened_pos.mpr ⟨?_, hbc, .inr ⟨edgesIn_pos.mpr hab, edgesIn_pos.mpr hia⟩⟩⟩
      rintro rfl
      rw [← edgesIn_pos] at hia
      omega
    · exact ⟨a, flattened_pos.mpr ⟨hac, hbc, .inl (edgesIn_pos.mpr hab)⟩⟩
  case narrow =>
    -- what reads `c` is a gate, so `b` does not
    intro b op' hbc hop' hand hor hl
    have hcb : ¬ 0 < net.edgesIn c b := by
      intro h
      rw [ho b (edgesIn_pos.mp h)] at hop'
      cases hop'
      rcases hop with rfl | rfl <;> contradiction
    have same : ∀ a, 0 < net.flattened c a b → net.flattened c a b = net.edgesIn a b := by
      grind [flattened]
    intro a a' h h'
    rw [length_inputsOf_le_one hb.wired] at hl
    have h1 := same a h
    have h2 := same a' h'
    rw [h1]
    exact hl a a' (by omega) (by omega)
  case read =>
    intro v hv b op' hbc hop' hib inputs hin
    by_cases hcb : c ∈ net.inputsOf b
    · have : op' = op := by
        rw [ho b hcb] at hop'
        cases hop'
        rfl
      subst this
      exact read_flattened hop hcc hin hbc hcb (hv c op' hc hi)
    · refine op'.read_of_mem_iff v fun a => ?_
      rw [hin, flattened_pos, ← edgesIn_pos]
      rw [← edgesIn_pos] at hcb
      grind
  case unread =>
    intro a hun b
    have h1 := hun.edgesIn hb b
    have h2 := hun.edgesIn hb c
    grind [flattened]

/-- Handing on the inputs of `c` in its place takes no edge away. -/
theorem le_count_handed (net : Network) (c a : CompId) (l : List CompId) :
    (if a = c then 0 else l.count a) + l.count c * net.edgesIn a c ≤
      (l.flatMap fun a => if a = c then net.inputsOf c else [a]).count a := by
  induction l with
  | nil => simp
  | cons d l ih =>
    rw [flatMap_cons, count_append, count_cons, count_cons]
    by_cases hd : d = c
    · subst hd
      rw [if_pos rfl, beq_self_eq_true, if_pos rfl, Nat.add_mul, Nat.one_mul]
      change _ ≤ net.edgesIn a d + _
      grind
    · rw [if_neg hd, count_singleton]
      grind

theorem flatten_progress {keep : List CompId} (hop : op = .and ∨ op = .or)
    (e : Edit (· = c) (fun o => c ∈ net.inputsOf o) (net.flattened c) net net') (hb : net.Balanced)
    (ha : net.Acyclic) (hs : Solid keep net) (hc : net.op? c = some op) (hi : net.inputsOf c ≠ [])
    (ho : ∀ o, c ∈ net.inputsOf o → net.op? o = some op) : Progress keep 1 net net' := by
  have hgate : op.isGate := by rcases hop with rfl | rfl <;> rfl
  have sound := flatten_sound hop e hb ha (hs.not_mem hc hgate) hc hi ho
  refine e.progress sound (fun d hd => hs.contains hd)
    (e.majorizes hb ha (fun a => if a = c then net.inputsOf c else [a]) (fun a => ?_)
      fun b hbc a => ?_) (fun _ _ => Nat.le_refl _) rfl (contains_of_op? hc)
  · split
    · next hac => rw [hac]; exact tally_routes_le hb ha c
    · simp
  refine Nat.le_trans ?_ (le_count_handed net c a _)
  change _ ≤ (if a = c then 0 else net.edgesIn a b) + net.edgesIn c b * net.edgesIn a c
  have : 0 < net.edgesIn c b ∧ 0 < net.edgesIn a c → 0 < net.edgesIn c b * net.edgesIn a c :=
    fun h => Nat.mul_pos h.1 h.2
  grind [flattened]

end Flatten

theorem flatten_yields {net : Network} {keep : List CompId} {op : Op}
    (hop : op = .and ∨ op = .or) (hb : net.Balanced) (ha : net.Acyclic) (hs : Solid keep net) :
    (net.flatten op).Yields fun r => Progress keep r.2 net r.1 := by
  refine (sweep_progress (fun _ => True) (fun net1 c k hb ha hs _ hk => ?_) hb ha hs trivial).mono
    fun r hr => hr.1
  refine .bind (mergesForward_yields hb hk) fun r hr => ?_
  cases r with
  | false => exact .pure fun _ h => by cases h
  | true =>
    obtain ⟨⟨hkop, hi, ho⟩, -⟩ := hr rfl
    refine (flatten_step hb (ha.irrefl c) hk).mono fun r hr net3 h => ?_
    obtain ⟨net2, hr2, e⟩ := hr
    rw [hr2] at h
    cases h
    refine ⟨flatten_progress hop e hb ha hs (by rw [op?_of_get? hk, hkop])
      (by rwa [inputsOf_of_get? hk]) fun o hco => ho o ?_, trivial⟩
    rw [← outputsOf_of_get? hk]
    exact hb.mem_iff.mpr hco

end GameNet.Network
