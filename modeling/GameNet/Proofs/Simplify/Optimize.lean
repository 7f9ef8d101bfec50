import GameNet.Proofs.Simplify.DeadEnds
import GameNet.Proofs.Simplify.Factor
import GameNet.Proofs.Simplify.Flatten
import GameNet.Proofs.Simplify.Sharing
import GameNet.Simplify.Optimize

/-!
The optimizer: it ends, and whatever is protected computes what it computed.

Every change takes away some of the mass, and the mass at the start is no more than the loop has turns.
-/

namespace GameNet

open List

/-! ## Mass and turns -/

namespace Loop

theorem square_lt_allowance (n : Nat) : n * (n + 1) + n + 2 ≤ allowance n + patience := by
  have small : ∀ n < 4, n * (n + 1) + n + 2 ≤ allowance n + patience := by decide
  by_cases hn : n < 4
  · exact small n hn
  obtain ⟨m, rfl⟩ := Nat.exists_eq_add_of_le (Nat.le_of_not_lt hn)
  clear hn
  suffices h : (4 + m) * (4 + m + 1) + (4 + m) + 2 ≤ allowance (4 + m) + patience ∧
      2 * (4 + m) + 3 ≤ allowance (4 + m) from h.1
  induction m with
  | zero => decide
  | succ m ih =>
    have hsucc : allowance (4 + (m + 1)) = allowance (4 + m) + allowance (4 + m) := rfl
    have hsq : (4 + (m + 1)) * (4 + (m + 1) + 1) = (4 + m) * (4 + m + 1) + 2 * (4 + m) + 2 := by
      rw [show 4 + (m + 1) = 4 + m + 1 by omega, Nat.add_mul, Nat.mul_add, Nat.mul_add]
      omega
    omega

end Loop

namespace Network

theorem routesWithin_le (net : Network) (n : Nat) (c : CompId) :
    net.routesWithin n c ≤ Loop.allowance (net.extent * n) := by
  induction n generalizing c with
  | zero => exact Nat.le_refl 1
  | succ n ih =>
    rw [routesWithin]
    split
    · exact Loop.allowance_pos _
    calc tally (net.routesWithin n) (net.inputsOf c)
        ≤ (net.inputsOf c).length * Loop.allowance (net.extent * n) := tally_le_mul fun a _ => ih a
      _ ≤ Loop.allowance net.extent * Loop.allowance (net.extent * n) :=
        Nat.mul_le_mul_right _ ((net.length_inputsOf_le c).trans (Loop.lt_allowance _).le)
      _ = Loop.allowance (net.extent * (n + 1)) := by
        rw [← Loop.allowance_add, Nat.mul_succ, Nat.add_comm]

theorem mass_lt_allowance (net : Network) {keep : List CompId} (hk : keep.length ≤ net.extent) :
    net.mass keep < Loop.allowance (Nat.pow 2 net.extent + Loop.patience) := by
  have hroutes : tally net.routes keep ≤
      Loop.allowance net.extent * Loop.allowance (net.extent * (net.extent + 1)) := by
    refine (tally_le_mul fun c _ => net.routesWithin_le _ c).trans (Nat.mul_le_mul ?_ ?_)
    · exact hk.trans (Loop.lt_allowance _).le
    · exact Loop.allowance_mono (Nat.mul_le_mul_left _ (Nat.succ_le_succ net.capacity_le_extent))
  have hlive : net.live.card < Loop.allowance net.extent := by
    have hcard := Finset.card_filter_le (Finset.range net.capacity) fun c => net.contains c
    rw [Finset.card_range] at hcard
    exact Nat.lt_of_le_of_lt (hcard.trans net.capacity_le_extent) (Loop.lt_allowance _)
  rw [← Loop.allowance_add] at hroutes
  rw [← Loop.allowance_eq, mass]
  have hsq := Loop.square_lt_allowance net.extent
  generalize hm : net.extent * (net.extent + 1) + net.extent = m at hsq
  rw [Nat.add_comm, hm] at hroutes
  have hle := Loop.allowance_mono hsq
  have hsucc : Loop.allowance (m + 2) = 2 * (Loop.allowance m + Loop.allowance m) := by
    rw [Loop.allowance, Loop.allowance]
    omega
  have hext : Loop.allowance net.extent ≤ Loop.allowance m := Loop.allowance_mono (by omega)
  omega

theorem protectedIds_of_parts {net net' : Network} (h : net'.parts = net.parts) (withGoals : Bool) :
    net'.protectedIds withGoals = net.protectedIds withGoals := by
  have hsame : ∀ net : Network, net.protectedIds withGoals = net.parts.protectedIds withGoals :=
    fun _ => rfl
  rw [hsame, h, ← hsame]

end Network

/-! ## Passes -/

namespace Optimize

open Network

/-- A pass that makes progress where some more is known, which stays known. -/
def Pass.Improves (kept keep : List CompId) (extra : Network → Prop) (p : Pass) : Prop :=
  ∀ net, net.Balanced → net.Acyclic → Solid keep net → Anchors kept keep net → extra net →
    (p.run net).Yields fun r => Progress keep r.2 net r.1 ∧ extra r.1

section Passes

variable {kept keep : List CompId} {net : Network}

theorem runPass_yields {p : Pass} {n : Nat} {P : Network × Nat → Prop} (h : (p.run net).Yields P) :
    (runPass (net, n) p).Yields fun r => ∃ m, P (r.1, m) ∧ r.2 = n + m :=
  Observed.Yields.bind (.lift h) fun r hr =>
    .bind (.tell (P := fun _ => True) trivial) fun _ _ => .pure ⟨r.2, hr, rfl⟩

theorem runPasses_yields (extra : Network → Prop) (ps : List Pass)
    (h : ∀ p ∈ ps, p.Improves kept keep extra) (hs : Solid keep net) (hk : Anchors kept keep net)
    {net1 : Network} {n : Nat} (hp : Progress keep n net net1) (hx : extra net1) :
    (ps.foldlM runPass (net1, n)).Yields fun r => Progress keep r.2 net r.1 ∧ extra r.1 := by
  refine (Observed.total.foldlM
    (fun rest s => (∀ p ∈ rest, p.Improves kept keep extra) ∧ Progress keep s.2 net s.1 ∧ extra s.1)
    (fun p rest s hinv => ?_) ps (net1, n) ⟨h, hp, hx⟩).mono fun r hr => hr.2
  obtain ⟨hps, hp, hx⟩ := hinv
  have hrun := hps p mem_cons_self s.1 hp.balanced hp.acyclic (hp.solid hs) (hp.toSound.anchors hk) hx
  refine (runPass_yields hrun).mono fun r hr => ?_
  obtain ⟨m, ⟨hm, hx⟩, hn⟩ := hr
  refine ⟨?_, ?_, hx⟩
  · exact (forall_mem_cons.mp hps).2
  · rw [hn]
    exact hp.trans hm

theorem improves_shareGates : Pass.Improves kept keep (Trim keep) ⟨"subexpr_elimination", shareGates⟩ :=
  fun _ hb ha hs _ ht => (shareGates_yields hb ha hs).mono fun _ h => ⟨h.1, h.2 ht⟩

theorem improves_factor (name : String) {x y : Op} (hx : x.IsLattice) (hy : y.IsLattice) :
    Pass.Improves kept keep (Trim keep) ⟨name, (·.factor x y)⟩ :=
  fun _ hb ha hs _ ht => factor_yields hx hy hb ha hs ht

theorem improves_removePassThrough : Pass.Improves kept keep (Trim keep)
      ⟨"unlink_passthrough", (·.removePassThrough [.and, .or, .proposition] kept)⟩ := by
  intro net hb ha hs hk ht
  refine (removePassThrough_yields (by decide) (fun c hc => ?_) hb ha hs).mono fun _ h => ⟨h.1, h.2 ht⟩
  rcases (hk c).mp hc with hc | hc
  · exact .inl hc
  · exact .inr ⟨.constant, hc, by decide⟩

theorem improves_dropRepeatedEdges :
    Pass.Improves kept keep (Trim keep) ⟨"sanitize_outputs", dropRepeatedEdges⟩ :=
  fun _ hb ha hs _ ht => dropRepeatedEdges_yields hb ha hs ht

theorem improves_removeDoubleNegations :
    Pass.Improves kept keep (fun _ => True) ⟨"double_negation", removeDoubleNegations⟩ :=
  fun _ hb ha hs _ _ => (removeDoubleNegations_yields hb ha hs).mono fun _ h => ⟨h, trivial⟩

theorem improves_flatten (name : String) {op : Op} (hop : op.IsLattice) :
    Pass.Improves kept keep (fun _ => True) ⟨name, (·.flatten op)⟩ :=
  fun _ hb ha hs _ _ => (flatten_yields hop hb ha hs).mono fun _ h => ⟨h, trivial⟩

end Passes

/-! ## Rounds -/

section Rounds

variable {keep : List CompId} {net : Network} (mode : Mode)

/-- A round makes progress. Dead ends go first, since some of the other passes need that there are
none. -/
theorem round_yields (hb : net.Balanced) (ha : net.Acyclic) (hs : Solid keep net)
    (hk : Anchors (net.protectedIds true) keep net) :
    (round mode net).Yields fun r => Progress keep r.2 net r.1 := by
  have hand : Op.and.IsLattice := .inl rfl
  have hor : Op.or.IsLattice := .inr rfl
  have hextra : ∀ {ps : List Pass} {p}, (p ∈ if mode.allPasses then ps else []) → p ∈ ps := by
    intro ps p hp
    split at hp
    · exact hp
    · cases hp
  unfold round passes
  rw [foldlM_append]
  refine .bind (P := fun r => Progress keep r.2 net r.1 ∧ Trim keep r.1) ?_ fun r hr => ?_
  · simp only [cons_append]
    rw [foldlM_cons]
    refine .bind (runPass_yields (removeDeadEnds_yields hk hb ha hs)) fun r hr => ?_
    obtain ⟨m, ⟨hm, ht⟩, hn⟩ := hr
    obtain ⟨net1, n⟩ := r
    simp only [Nat.zero_add] at hn hm ht
    subst hn
    refine runPasses_yields _ _ (fun p hp => ?_) hs hk hm ht
    simp only [mem_cons, mem_append, nil_append] at hp
    rcases hp with rfl | hp | rfl | rfl | hp
    · exact improves_shareGates
    · rcases mem_cons.mp (hextra hp) with rfl | hp
      · exact improves_factor _ hand hor
      rcases mem_cons.mp hp with rfl | hp
      · exact improves_factor _ hor hand
      rcases mem_cons.mp hp with rfl | hp
      · exact improves_factor _ hor hor
      rcases mem_cons.mp hp with rfl | hp
      · exact improves_factor _ hand hand
      · rw [mem_singleton.mp hp]
        exact improves_shareGates
    · exact improves_removePassThrough
    · exact improves_dropRepeatedEdges
    · cases hp
  · refine (runPasses_yields (fun _ => True) _ (fun p hp => ?_) hs hk hr.1 trivial).mono fun r h => h.1
    rcases mem_cons.mp (hextra hp) with rfl | hp
    · exact improves_removeDoubleNegations
    rcases mem_cons.mp hp with rfl | hp
    · exact improves_flatten _ hand
    · rw [mem_singleton.mp hp]
      exact improves_flatten _ hor

theorem turn_yields {net0 : Network} (s : Network × Nat) (hp : Sound (· ∈ keep) net0 s.1)
    (hs : Solid keep net0) (hk : Anchors (net0.protectedIds true) keep net0) :
    (turn mode s).Yields (Guarantee.Reaches
      (fun s' => Sound (· ∈ keep) net0 s'.1 ∧ s'.1.mass keep < s.1.mass keep)
      fun r => Sound (· ∈ keep) net0 r.1) := by
  have hk1 : Anchors (s.1.protectedIds true) keep s.1 := by
    rw [protectedIds_of_parts hp.parts]
    exact hp.anchors hk
  refine .bind (round_yields mode hp.balanced hp.acyclic (hp.solid hs) hk1) fun r hr => .pure ?_
  have hsound := hp.trans hr.toSound
  split
  · exact hsound
  next hn =>
  simp only [Bool.or_eq_true, beq_iff_eq, not_or] at hn
  exact ⟨hsound, hr.mass_lt (Nat.pos_of_ne_zero hn.2)⟩

end Rounds

end Optimize

namespace Network

/-! ## The optimizer as a whole -/

theorem get?_fitAllThresholds (net : Network) (c : CompId) :
    net.fitAllThresholds.get? c = (net.get? c).map Component.fitThresholds :=
  get?_mapComponents net _ c

theorem fitAllThresholds_rewires (net : Network) :
    Rewires (fun c => net.op? c = some .and) net net.fitAllThresholds ∧
      Wired net.fitAllThresholds net.edgesIn net.edgesOut := by
  refine ⟨⟨rfl, ?_, fun c => ?_, fun c hc => ?_⟩, fun a b => ?_, fun a b => ?_⟩
  · rw [capacity, capacity, fitAllThresholds, mapComponents, Array.size_map]
  · rw [face?, face?, get?_fitAllThresholds, Option.map_map]
    congr 1
    funext k
    exact k.fitThresholds_keeps.2.2.2
  · rw [bare?, bare?, get?_fitAllThresholds]
    cases hk : net.get? c with
    | none => rfl
    | some k =>
      rw [op?_of_get? hk, Option.some.injEq] at hc
      rw [Option.map_some, Option.map_some, Option.map_some, Component.fitThresholds]
      split
      · next hand => exact absurd (by rw [Component.op, hand]; rfl) hc
      · rfl
  · rw [edgesIn, edgesIn, inputsOf, inputsOf, get?_fitAllThresholds]
    cases net.get? b with
    | none => rfl
    | some k => exact congrArg (List.count a) k.fitThresholds_keeps.1
  · rw [edgesOut, edgesOut, outputsOf, outputsOf, get?_fitAllThresholds]
    cases net.get? a with
    | none => rfl
    | some k => exact congrArg (List.count b) k.fitThresholds_keeps.2.1

theorem fitAllThresholds_sound {keep : CompId → Prop} {net : Network} (hb : net.Balanced)
    (ha : net.Acyclic) : Sound keep net net.fitAllThresholds := by
  obtain ⟨rank, hrank, -⟩ := ha.exists_rank hb
  obtain ⟨hr, hw⟩ := net.fitAllThresholds_rewires
  have e := hr.edit (hw.congr (fun _ _ => rfl) hb)
  refine e.sound (fun _ _ h => h) rank (fun a b hab => hrank a b (edgesIn_pos.mp hab)) ?_ ?_ ?_ ?_ ?_
    fun a hun b => hun.edgesIn hb b
  · intro c hand hi
    refine .inr ⟨hand, fun hrest => ?_⟩
    obtain ⟨k, hk, h0, -⟩ := hrest
    rw [op?_of_get? hk, Option.some.injEq] at hand
    rw [inputsOf_of_get? hk] at hi
    refine ⟨k.fitThresholds, by rw [get?_fitAllThresholds, hk]; rfl, ?_⟩
    rw [Component.fitThresholds_of_and hand, hi]
    exact ⟨h0, rfl⟩
  · intro c _ hi a
    rw [edgesIn, hi]
    rfl
  · intro c _ hi
    obtain ⟨a, hac⟩ := exists_mem_of_ne_nil _ hi
    exact ⟨a, edgesIn_pos.mpr hac⟩
  · intro c op _ _ _ _ hl
    exact (length_inputsOf_le_one hb.wired c).mp hl
  · intro v _ c op _ _ _ inputs hi
    exact op.read_of_mem_iff v fun a => (hi a).trans edgesIn_pos

def PartsPlayed (net : Network) : Prop :=
  ∀ c ∈ net.protectedIds true, net.op? c = some .proposition ∨ net.op? c = some .transition

instance (net : Network) : Decidable net.PartsPlayed :=
  inferInstanceAs (Decidable (∀ c ∈ _, _))

def anchors (net : Network) : List CompId :=
  net.ids.filter fun c => decide (c ∈ net.protectedIds true) || decide (net.op? c = some .constant)

section Optimizer

variable {net : Network}

theorem mem_anchors {c : CompId} : c ∈ net.anchors ↔
    net.contains c ∧ (c ∈ net.protectedIds true ∨ net.op? c = some .constant) := by
  simp only [anchors, mem_filter, mem_ids, Bool.or_eq_true, decide_eq_true_eq]

theorem PartsPlayed.contains (h : net.PartsPlayed) {c : CompId} (hc : c ∈ net.protectedIds true) :
    net.contains c := by
  rcases h c hc with hop | hop <;> exact contains_of_op? hop

theorem PartsPlayed.anchors (h : net.PartsPlayed) : Anchors (net.protectedIds true) net.anchors net := by
  intro c
  rw [mem_anchors]
  refine and_iff_right_of_imp ?_
  rintro (hc | hop)
  · exact h.contains hc
  · exact contains_of_op? hop

theorem PartsPlayed.solid (h : net.PartsPlayed) : Solid net.anchors net := by
  intro c hc
  rcases (mem_anchors.mp hc).2 with hc | hop
  · rcases h c hc with hop | hop
    · exact ⟨_, hop, rfl⟩
    · exact ⟨_, hop, rfl⟩
  · exact ⟨_, hop, rfl⟩

theorem length_anchors_le (net : Network) : net.anchors.length ≤ net.extent := by
  calc net.anchors.length
      ≤ net.ids.length := length_filter_le _ _
    _ = net.components.length := length_map _
    _ ≤ net.capacity := net.length_components_le
    _ ≤ net.extent := net.capacity_le_extent

/-- The optimizer ends, and what it does is sound. -/
theorem optimize_yields (mode : Optimize.Mode) (hb : net.Balanced) (ha : net.Acyclic) (hp : net.PartsPlayed) :
    (net.optimize mode).Yields fun r => Sound (· ∈ net.anchors) net r.1 ∧
      ∀ c k, r.1.get? c = some k → k.op = .and →
        k.reqTrue = k.inputs.length ∧ k.reqFalse = k.inputs.length - 1 := by
  have hloop : (Loop.run (Nat.pow 2 net.extent) (Optimize.turn mode) (net, 0)).Yields fun r =>
      Sound (· ∈ net.anchors) net r.1 :=
    Observed.total.run (fun s : Network × Nat => Sound (· ∈ net.anchors) net s.1)
      (fun s => s.1.mass net.anchors) (fun r : Network × Nat => Sound (· ∈ net.anchors) net r.1)
      (fun s hs => Optimize.turn_yields mode s hs hp.solid hp.anchors) (.refl hb ha)
      (net.mass_lt_allowance net.length_anchors_le)
  refine Observed.Yields.bind hloop fun r hr => .pure ⟨?_, fun c k hk hand => ?_⟩
  · exact hr.trans (fitAllThresholds_sound hr.balanced hr.acyclic)
  rw [get?_fitAllThresholds] at hk
  obtain ⟨k0, -, rfl⟩ := Option.map_eq_some_iff.mp hk
  have hkind := k0.fitThresholds_keeps.2.2.1
  rw [Component.op, hkind] at hand
  rw [Component.fitThresholds_of_and hand]
  exact ⟨rfl, rfl⟩

/-- The optimizer keeps the function computed at every component with a part in the game, and leaves a
sound network. -/
theorem eval_optimize (net : Network) (mode : Optimize.Mode) (hb : net.Balanced)
    (ha : net.Acyclic) (hp : net.PartsPlayed) :
    ∃ net' n, (net.optimize mode).listen.1 = .ok (net', n) ∧ net'.parts = net.parts ∧
      (∀ c ∈ net.protectedIds true, net'.contains c = true ∧ net'.bare? c = net.bare? c) ∧
      net'.Acyclic ∧ net'.Balanced ∧
      (∀ a b, a ∈ net'.inputsOf b ∨ b ∈ net'.outputsOf a →
        net'.contains a = true ∧ net'.contains b = true) ∧
      (∀ c k, net'.get? c = some k → k.op = .and →
        k.reqTrue = k.inputs.length ∧ k.reqFalse = k.inputs.length - 1) ∧
      (∀ c, net'.contains c = true → net'.inputsOf c = [] →
        net.contains c = true ∧ net.inputsOf c = []) ∧
      ∀ σ, ∀ c ∈ net.protectedIds true, net'.eval σ c = net.eval σ c := by
  obtain ⟨⟨net', n⟩, hrun, hs, hand⟩ := optimize_yields mode hb ha hp #[]
  have hkept : ∀ c ∈ net.protectedIds true, net'.contains c = true := fun c hc =>
    hs.keeps c (mem_anchors.mpr ⟨hp.contains hc, .inl hc⟩) (hp.contains hc)
  have hplain : ∀ c ∈ net.protectedIds true, ∃ op, net.op? c = some op ∧ op.isGate = false := by
    intro c hc
    rcases hp c hc with hop | hop
    · exact ⟨_, hop, rfl⟩
    · exact ⟨_, hop, rfl⟩
  refine ⟨net', n, hrun, hs.parts, fun c hc => ⟨hkept c hc, ?_⟩, hs.acyclic, hs.balanced,
    fun a b hab => ?_, hand, fun c hc hi => hs.source hc hi, fun σ c hc => ?_⟩
  · obtain ⟨op, hop, hg⟩ := hplain c hc
    exact hs.bare? hop hg (hkept c hc)
  · rcases hab with hab | hab
    · exact ⟨hs.balanced.contains_source hab, contains_of_mem_inputsOf hab⟩
    · exact ⟨contains_of_mem_outputsOf hab, hs.balanced.contains_target hab⟩
  · exact hs.eval_eq hb ha σ (.inl (hplain c hc)) (hkept c hc)

/-- The lamp game has its repeated edge and its double negation taken out, for one. -/
theorem eval_optimize_lamp : lamp.Balanced ∧ lamp.Acyclic ∧ lamp.PartsPlayed ∧
    ∃ net' n, (lamp.optimize { allPasses := true }).listen.1 = .ok (net', n) ∧
      ∀ σ, ∀ c ∈ lamp.protectedIds true, net'.eval σ c = lamp.eval σ c := by
  have hp : lamp.PartsPlayed := by decide
  obtain ⟨net', n, hrun, -, -, -, -, -, -, -, heval⟩ :=
    eval_optimize lamp { allPasses := true } lamp_balanced lamp_acyclic hp
  exact ⟨lamp_balanced, lamp_acyclic, hp, net', n, hrun, heval⟩

end Optimizer

end Network

end GameNet
