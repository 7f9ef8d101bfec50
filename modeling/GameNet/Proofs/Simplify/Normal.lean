import GameNet.Proofs.Simplify.Optimize

/-!
What the optimizer leaves: a network in which no pass finds anything to do.

The last round of the loop counts none, so all passes are idle in the same network.
-/

namespace GameNet

open List

namespace Component

@[simp] theorem inputs_fitThresholds (k : Component) : k.fitThresholds.inputs = k.inputs :=
  k.fitThresholds_keeps.1

@[simp] theorem outputs_fitThresholds (k : Component) : k.fitThresholds.outputs = k.outputs :=
  k.fitThresholds_keeps.2.1

@[simp] theorem op_fitThresholds (k : Component) : k.fitThresholds.op = k.op := by
  rw [op, op, k.fitThresholds_keeps.2.2.1]

theorem fitThresholds_fitThresholds (k : Component) : k.fitThresholds.fitThresholds = k.fitThresholds := by
  by_cases h : k.op = .and
  · rw [fitThresholds_of_and h]
    exact fitThresholds_of_and h
  have hk : ∀ k : Component, k.op ≠ .and → k.fitThresholds = k := by
    intro k hk
    rw [fitThresholds]
    split
    · next hand => exact absurd (by rw [op, hand]; rfl) hk
    · rfl
  rw [hk k h, hk k h]

end Component

namespace Network

/-! ## Fitted networks -/

section Fitted

variable {net : Network} {c : CompId}

theorem get_fitAllThresholds_bind {α : Type} (f : Component → Checked α) :
    net.fitAllThresholds.get c >>= f = net.get c >>= fun k => f k.fitThresholds := by
  rw [get, get, get?_fitAllThresholds]
  cases net.get? c <;> rfl

theorem op_fitAllThresholds : net.fitAllThresholds.op c = net.op c := by
  simp only [op, get_fitAllThresholds_bind, Component.op_fitThresholds]

theorem fitAllThresholds_fitAllThresholds (net : Network) :
    net.fitAllThresholds.fitAllThresholds = net.fitAllThresholds := by
  simp only [fitAllThresholds, mapComponents, Array.map_map]
  congr 2
  funext slot
  cases slot with
  | none => rfl
  | some k => exact congrArg some k.fitThresholds_fitThresholds

theorem forall_fitAllThresholds {P : CompId → Component → Prop}
    (h : ∀ c k, net.get? c = some k → P c k.fitThresholds) (c : CompId) (k : Component)
    (hk : net.fitAllThresholds.get? c = some k) : P c k := by
  rw [get?_fitAllThresholds] at hk
  obtain ⟨k0, hk0, rfl⟩ := Option.map_eq_some_iff.mp hk
  exact h c k0 hk0

/-! What the passes look at is left alone by fitting the thresholds. -/

theorem doublyNegated?_fitAllThresholds (k : Component) :
    net.fitAllThresholds.doublyNegated? c k.fitThresholds = net.doublyNegated? c k := by
  simp only [doublyNegated?, get_fitAllThresholds_bind, Component.op_fitThresholds,
    Component.inputs_fitThresholds, Component.outputs_fitThresholds]

theorem mergesForward_fitAllThresholds (op : Op) (k : Component) :
    net.fitAllThresholds.mergesForward op c k.fitThresholds = net.mergesForward op c k := by
  simp only [mergesForward, op_fitAllThresholds, Component.op_fitThresholds,
    Component.inputs_fitThresholds, Component.outputs_fitThresholds]

theorem commonInputs_fitAllThresholds (gates : List CompId) :
    net.fitAllThresholds.commonInputs gates = net.commonInputs gates := by
  cases gates with
  | nil => rfl
  | cons x xs => simp only [commonInputs, get_fitAllThresholds_bind, Component.inputs_fitThresholds]

theorem factorable?_fitAllThresholds (x : Op) (k : Component) :
    net.fitAllThresholds.factorable? x c k.fitThresholds = net.factorable? x c k := by
  simp only [factorable?, get_fitAllThresholds_bind, commonInputs_fitAllThresholds,
    Component.op_fitThresholds, Component.inputs_fitThresholds, Component.outputs_fitThresholds]

end Fitted

/-! ## Sweeps -/

theorem foldlM_eq_zero_iff {α σ : Type} {f : σ × Nat → α → Checked (σ × Nat)}
    (hf : ∀ s n a s', f (s, n) a = .ok (s', 0) → n = 0 ∧ s' = s) (as : List α) {s s' : σ} {n : Nat} :
    as.foldlM f (s, n) = .ok (s', 0) ↔ (n = 0 ∧ s' = s) ∧ ∀ a ∈ as, f (s, 0) a = .ok (s, 0) := by
  induction as generalizing s n with
  | nil =>
    constructor
    · rintro ⟨⟩
      exact ⟨⟨rfl, rfl⟩, forall_mem_nil _⟩
    · rintro ⟨⟨rfl, rfl⟩, -⟩
      rfl
  | cons a as ih =>
    rw [foldlM_cons, forall_mem_cons]
    constructor
    · intro h
      obtain ⟨⟨t, m⟩, hstep, hrest⟩ := exists_of_bind_eq_ok h
      obtain ⟨⟨rfl, rfl⟩, hall⟩ := ih.mp hrest
      obtain ⟨rfl, rfl⟩ := hf _ _ _ _ hstep
      exact ⟨⟨rfl, rfl⟩, hstep, hall⟩
    · rintro ⟨⟨rfl, rfl⟩, hstep, hall⟩
      rw [hstep]
      exact ih.mpr ⟨⟨rfl, rfl⟩, hall⟩

def Idles {α τ : Type} (next : τ → α → τ) (idle : τ → α → Prop) : τ → List α → Prop
  | _, [] => True
  | memo, a :: as => idle memo a ∧ Idles next idle (next memo a) as

theorem foldlM_memo_eq_zero_iff {α σ τ : Type} {f : σ × τ × Nat → α → Checked (σ × τ × Nat)}
    (next : σ → τ → α → τ) (idle : σ → τ → α → Prop)
    (hf : ∀ s memo n a s' memo', f (s, memo, n) a = .ok (s', memo', 0) ↔
      (n = 0 ∧ s' = s ∧ memo' = next s memo a) ∧ idle s memo a)
    (as : List α) {s s' : σ} {memo : τ} {n : Nat} :
    (as.foldlM f (s, memo, n) >>= fun r => pure (r.1, r.2.2)) = .ok (s', 0) ↔
      (n = 0 ∧ s' = s) ∧ Idles (next s) (idle s) memo as := by
  induction as generalizing s n memo with
  | nil =>
    constructor
    · rintro ⟨⟩
      exact ⟨⟨rfl, rfl⟩, trivial⟩
    · rintro ⟨⟨rfl, rfl⟩, -⟩
      rfl
  | cons a as ih =>
    rw [foldlM_cons, bind_assoc]
    constructor
    · intro h
      obtain ⟨⟨t, memo', m⟩, hstep, hrest⟩ := exists_of_bind_eq_ok h
      obtain ⟨⟨rfl, rfl⟩, hall⟩ := ih.mp hrest
      obtain ⟨⟨rfl, rfl, rfl⟩, hidle⟩ := (hf _ _ _ _ _ _).mp hstep
      exact ⟨⟨rfl, rfl⟩, hidle, hall⟩
    · rintro ⟨⟨rfl, rfl⟩, hidle, hall⟩
      rw [(hf _ _ _ _ _ _).mpr ⟨⟨rfl, rfl, rfl⟩, hidle⟩]
      exact ih.mpr ⟨⟨rfl, rfl⟩, hall⟩

theorem pure_eq_zero_iff {σ τ : Type} {s s' : σ} {memo memo' : τ} {n : Nat} :
    (pure (s, memo, n) : Checked (σ × τ × Nat)) = .ok (s', memo', 0) ↔ n = 0 ∧ s' = s ∧ memo' = memo := by
  constructor
  · rintro ⟨⟩
    exact ⟨rfl, rfl, rfl⟩
  · rintro ⟨rfl, rfl, rfl⟩
    rfl

section Sweeps

variable {net net' : Network}

theorem sweep_eq_zero_iff {visit : Network → CompId → Component → Checked (Option Network)} :
    net.sweep visit = .ok (net', 0) ↔ net' = net ∧ ∀ c k, net.get? c = some k → visit net c k = .ok none := by
  rw [sweep, foldlM_eq_zero_iff (fun net n c net' h => ?_), eq_self_iff_true, true_and]
  · refine and_congr_right fun _ => ⟨fun h c k hk => ?_, fun h c _ => ?_⟩
    · have hc := h c (mem_ids.mpr (contains_of_get? hk))
      dsimp only at hc
      rw [hk] at hc
      obtain ⟨_ | net1, hr, hc⟩ := exists_of_bind_eq_ok hc
      · exact hr
      · cases hc
    · dsimp only
      cases hk : net.get? c with
      | none => rfl
      | some k => exact congrArg (· >>= _) (h c k hk)
  · dsimp only at h
    split at h
    · cases h
      exact ⟨rfl, rfl⟩
    obtain ⟨_ | net1, -, h⟩ := exists_of_bind_eq_ok h
    · cases h
      exact ⟨rfl, rfl⟩
    · cases h

theorem sweep_idle_iff {visit : Network → CompId → Component → Checked (Option Network)}
    {idle : CompId → Component → Prop} (h : ∀ c k, visit net c k = .ok none ↔ idle c k) :
    net.sweep visit = .ok (net', 0) ↔ net' = net ∧ ∀ c k, net.get? c = some k → idle c k := by
  simp only [sweep_eq_zero_iff, h]

theorem bind_some_ne_none {α β : Type} (x : Checked α) (f : α → β) :
    (do return some (f (← x)) : Checked (Option β)) ≠ .ok none := by
  intro h
  obtain ⟨a, -, ha⟩ := exists_of_bind_eq_ok h
  cases ha

theorem bind_eq_none_iff {α β : Type} {x : Checked α} {f : α → Checked (Option β)} (a : α)
    (ha : f a = .ok none) (hf : ∀ b, b ≠ a → f b ≠ .ok none) : (x >>= f) = .ok none ↔ x = .ok a := by
  refine ⟨fun h => ?_, fun h => h ▸ ha⟩
  obtain ⟨b, rfl, hb⟩ := exists_of_bind_eq_ok h
  exact congrArg Except.ok (not_imp_not.mp (hf b) hb)

theorem removePassThrough_eq_zero_iff {ops : List Op} {keep : List CompId} :
    net.removePassThrough ops keep = .ok (net', 0) ↔ net' = net ∧
      ∀ c k, net.get? c = some k → k.op ∈ ops → c ∉ keep → ∀ x, k.inputs = [x] →
        k.outputs = [] ∨ x ∈ k.outputs ∨ x = c := by
  refine sweep_idle_iff fun c k => ?_
  by_cases hcond : (!ops.contains k.op || keep.contains c) = true
  · rw [if_pos hcond]
    refine iff_of_true rfl fun hop hc => ?_
    simp [hop, hc] at hcond
  rw [if_neg hcond]
  have hop : k.op ∈ ops ∧ c ∉ keep := by simpa using hcond
  split
  · next x hx =>
    by_cases hout : (k.outputs.isEmpty || k.outputs.contains x || decide (x = c)) = true
    · rw [if_pos hout]
      refine iff_of_true rfl fun _ _ y hy => ?_
      cases hx.symm.trans hy
      simpa [or_assoc] using hout
    · rw [if_neg hout]
      refine iff_of_false (bind_some_ne_none _ _) fun h => hout ?_
      simpa [or_assoc] using h hop.1 hop.2 x hx
  · next hne => exact iff_of_true rfl fun _ _ x hx => absurd hx (hne x)

theorem removeDoubleNegations_eq_zero_iff : net.removeDoubleNegations = .ok (net', 0) ↔ net' = net ∧
    ∀ c k, net.get? c = some k → net.doublyNegated? c k = .ok none := by
  refine sweep_idle_iff fun c k => bind_eq_none_iff none rfl fun r hr h => ?_
  obtain ⟨x, rfl⟩ := Option.ne_none_iff_exists'.mp hr
  obtain ⟨net1, -, h⟩ := exists_of_bind_eq_ok h
  exact bind_some_ne_none _ _ h

theorem flatten_eq_zero_iff {op : Op} : net.flatten op = .ok (net', 0) ↔ net' = net ∧
    ∀ c k, net.get? c = some k → net.mergesForward op c k = .ok false := by
  refine sweep_idle_iff fun c k => bind_eq_none_iff false rfl fun r hr h => ?_
  obtain rfl := Bool.eq_true_of_not_eq_false hr
  obtain ⟨net1, -, h⟩ := exists_of_bind_eq_ok h
  exact bind_some_ne_none _ _ h

theorem factor_eq_zero_iff {x y : Op} {kind : Kind} (hx : Kind.ofOp? x = some kind) :
    net.factor x y = .ok (net', 0) ↔ net' = net ∧
      ∀ c k, net.get? c = some k → k.op = y → net.factorable? x c k = .ok none := by
  rw [factor, hx]
  refine sweep_idle_iff fun c k => ?_
  by_cases hy : k.op = y
  · rw [if_neg (not_not.mpr hy), forall_prop_of_true hy]
    refine bind_eq_none_iff none rfl fun r hr h => ?_
    obtain ⟨common, rfl⟩ := Option.ne_none_iff_exists'.mp hr
    exact bind_some_ne_none _ _ h
  · rw [if_pos hy]
    exact iff_of_true rfl fun h => absurd h hy

end Sweeps

/-! ## Dead ends -/

section DeadEnds

variable {net net' : Network} {keep : List CompId}

theorem removeDeadEnds_eq_zero_iff : net.removeDeadEnds keep = .ok (net', 0) ↔ net' = net ∧
    ∀ c k, net.get? c = some k → k.outputs = [] → c ∈ keep ∨ k.op = .constant := by
  constructor
  · intro h
    have hall : (net.removeDeadEnds keep).Ensures fun r => r.2 = 0 → r.1 = net ∧
        ∀ c k, net.get? c = some k → k.outputs = [] → c ∈ keep ∨ k.op = .constant := by
      refine Checked.partly.run_of_exhausted (fun s : DeadEnds.State => s.removed = 0 → s.net = net ∧
        ∀ c k, net.get? c = some k → k.outputs = [] → (c ∈ keep ∨ k.op = .constant) ∨ c ∈ s.suspects)
        _ (fun s hs => ?_) .throw fun _ => ⟨rfl, fun c k hk ho => .inr ?_⟩
      · refine (DeadEnds.turn_yields keep s).ensures.mono fun t ht => ?_
        cases ht with
        | ended hnil =>
          intro hn
          refine ⟨(hs hn).1, fun c k hk ho => ((hs hn).2 c k hk ho).resolve_right ?_⟩
          rw [hnil]
          exact not_mem_nil
        | @clear c rest hcons hc =>
          intro hn
          refine ⟨(hs hn).1, fun d k hk ho => ?_⟩
          rcases (hs hn).2 d k hk ho with hd | hd
          · exact .inl hd
          rw [hcons] at hd
          rcases mem_cons.mp hd with rfl | hd
          · exact .inl (hc k (by rw [(hs hn).1, hk]) ho)
          · exact .inr hd
        | drop => exact fun hn => absurd hn (Nat.succ_ne_zero _)
      · simp only [mem_reverse, mem_map, mem_filter]
        exact ⟨(c, k), ⟨mem_components.mpr hk, by rw [ho]; rfl⟩, rfl⟩
    exact hall _ h rfl
  · rintro ⟨rfl, hkept⟩
    have hall : (net'.removeDeadEnds keep).Yields fun r => r = (net', 0) := by
      refine Checked.total.run (fun s : DeadEnds.State => s.net = net' ∧ s.removed = 0) DeadEnds.workLeft _
        (fun s hs => ?_) ⟨rfl, rfl⟩ (DeadEnds.workLeft_start net')
      refine (DeadEnds.turn_yields keep s).mono fun t ht => ?_
      obtain ⟨net1, suspects, removed⟩ := s
      obtain ⟨rfl, rfl⟩ : net1 = net' ∧ removed = 0 := hs
      cases ht with
      | ended => exact rfl
      | @clear c rest hcons =>
        cases hcons
        exact ⟨⟨rfl, rfl⟩, DeadEnds.workLeft_clear net1 c rest 0⟩
      | @drop c rest k _ hk ho hfree hop =>
        rcases hkept c k hk ho with h | h
        · exact absurd h hfree
        · exact absurd h hop
    obtain ⟨r, hr, rfl⟩ := hall
    exact hr

end DeadEnds

/-! ## Sharing -/

section Sharing

variable {net net' : Network}

def KeysDiffer (net : Network) : Prop :=
  ∀ c d k k', net.get? c = some k → net.get? d = some k' → k.isGate = true → k.inputs ≠ [] →
    gateKey k = gateKey k' → c = d

def keyOf? (net : Network) (c : CompId) : Option GateKey :=
  ((net.get? c).filter fun k => k.isGate && !k.inputs.isEmpty).map gateKey

theorem keyOf?_eq_some {c : CompId} {key : GateKey} : net.keyOf? c = some key ↔
    ∃ k, net.get? c = some k ∧ (k.isGate ∧ k.inputs ≠ []) ∧ gateKey k = key := by
  simp [keyOf?, Option.filter_eq_some_iff, and_assoc]

def seeKey (net : Network) (seen : List (GateKey × CompId)) (c : CompId) : List (GateKey × CompId) :=
  (net.keyOf? c).elim seen fun key => (key, c) :: seen

theorem idles_seeKey_iff {rest : List CompId} {seen : List (GateKey × CompId)}
    (hseen : ∀ e ∈ seen, net.keyOf? e.2 = some e.1) :
    Idles net.seeKey (fun seen c => ∀ key, net.keyOf? c = some key →
      (seen.lookup key).filter net.contains = none) seen rest ↔
    (∀ c ∈ rest, ∀ e ∈ seen, net.keyOf? c ≠ some e.1) ∧
      rest.Pairwise fun c d => ∀ key, net.keyOf? c = some key → net.keyOf? d ≠ some key := by
  induction rest generalizing seen with
  | nil => simp [Idles]
  | cons c rest ih =>
    rw [Idles, forall_mem_cons, pairwise_cons]
    cases hc : net.keyOf? c with
    | none =>
      rw [seeKey, hc, Option.elim_none, ih hseen]
      simp
    | some key =>
      -- what has been seen is still there
      have hnew : (seen.lookup key).filter net.contains = none ↔ ∀ e ∈ seen, key ≠ e.1 := by
        cases hl : seen.lookup key with
        | none => exact iff_of_true rfl fun e he => by simpa using lookup_eq_none_iff.mp hl e he
        | some d =>
          obtain ⟨before, after, rfl, -⟩ := lookup_eq_some_iff.mp hl
          have hmem : (key, d) ∈ before ++ (key, d) :: after := by simp
          obtain ⟨k, hk, -⟩ := keyOf?_eq_some.mp (hseen _ hmem)
          refine iff_of_false (fun h => ?_) fun h => h _ hmem rfl
          rw [Option.filter_some, if_pos (contains_of_get? hk)] at h
          cases h
      rw [seeKey, hc, Option.elim_some, ih (forall_mem_cons.mpr ⟨hc, hseen⟩)]
      simp only [Option.some.injEq, forall_eq', hnew, forall_mem_cons, forall_and, ne_eq]
      tauto

theorem shareGates_eq_zero_iff : net.shareGates = .ok (net', 0) ↔ net' = net ∧ net.KeysDiffer := by
  refine (foldlM_memo_eq_zero_iff seeKey (fun net seen c => ∀ key, net.keyOf? c = some key →
    (seen.lookup key).filter net.contains = none) (fun net seen n c net' seen' => ?_) net.ids).trans ?_
  · dsimp only
    cases hk : net.get? c with
    | none =>
      have hnone : net.keyOf? c = none := by rw [keyOf?, hk]; rfl
      simp [pure_eq_zero_iff, seeKey, hnone]
    | some k =>
      dsimp only
      split
      · next hgate =>
        have hnone : net.keyOf? c = none := by
          rw [keyOf?, hk, Option.filter_some, if_neg (by simpa [imp_iff_not_or] using hgate)]
          rfl
        simp [pure_eq_zero_iff, seeKey, hnone]
      next hgate =>
      have hkey : net.keyOf? c = some (gateKey k) := keyOf?_eq_some.mpr ⟨k, hk, by simpa using hgate, rfl⟩
      cases hlook : (seen.lookup (gateKey k)).filter net.contains with
      | none => simp only [pure_eq_zero_iff, seeKey, hkey, Option.elim_some, Option.some.injEq, forall_eq',
          hlook, and_true]
      | some twin =>
        refine iff_of_false (fun h => ?_) fun h => ?_
        · obtain ⟨_, -, h⟩ := exists_of_bind_eq_ok h
          cases h
        · rw [h.2 _ hkey] at hlook
          cases hlook
  · rw [idles_seeKey_iff (forall_mem_nil _)]
    refine and_congr (and_iff_right rfl) ⟨fun h c d k k' hk hk' hg hi hkey => ?_, fun h => ⟨by simp, ?_⟩⟩
    · have hk₁ : net.keyOf? c = some (gateKey k) := keyOf?_eq_some.mpr ⟨k, hk, ⟨hg, hi⟩, rfl⟩
      have hk₂ : net.keyOf? d = some (gateKey k) := by
        refine keyOf?_eq_some.mpr ⟨k', hk', ⟨?_, fun hnil => hi ?_⟩, hkey.symm⟩
        · rw [Component.isGate, ← (Prod.mk.inj hkey).1]
          exact hg
        · have hp := CompId.sorted_eq_sorted_iff.mp (Prod.mk.inj hkey).2
          rwa [hnil, perm_nil] at hp
      by_contra hne
      have : Std.Symm fun c d => ∀ key, net.keyOf? c = some key → net.keyOf? d ≠ some key :=
        ⟨fun _ _ h key hd hc => h key hc hd⟩
      exact h.2.forall (mem_ids.mpr (contains_of_get? hk)) (mem_ids.mpr (contains_of_get? hk')) hne _ hk₁ hk₂
    · refine (nodup_ids net).pairwise_of_forall_ne fun c _ d _ hne key hc hd => hne ?_
      obtain ⟨k, hk, ⟨hg, hi⟩, hkey⟩ := keyOf?_eq_some.mp hc
      obtain ⟨k', hk', -, hkey'⟩ := keyOf?_eq_some.mp hd
      exact h c d k k' hk hk' hg hi (hkey.trans hkey'.symm)

end Sharing

/-! ## Repeated edges -/

section Repeated

variable {net net' : Network}

theorem idles_cons_iff {outputs seen : List CompId} :
    Idles (fun seen o => o :: seen) (fun seen o => o ∉ seen) seen outputs ↔
      outputs.Nodup ∧ outputs.Disjoint seen := by
  induction outputs generalizing seen with
  | nil => simp [Idles]
  | cons o outputs ih =>
    rw [Idles, ih, nodup_cons, disjoint_cons_left, disjoint_cons_right]
    tauto

theorem dropRepeatedOutputs_eq_zero_iff {c : CompId} : net.dropRepeatedOutputs c = .ok (net', 0) ↔
    net' = net ∧ ∃ k, net.get? c = some k ∧ k.outputs.Nodup := by
  unfold dropRepeatedOutputs
  cases hk : net.get? c with
  | none =>
    rw [get, hk]
    exact iff_of_false (fun h => by cases h) fun h => by simp at h
  | some k =>
    rw [get_of_get? hk]
    refine (foldlM_memo_eq_zero_iff (fun _ seen o => o :: seen) (fun _ seen o => o ∉ seen)
      (fun net seen n o net' seen' => ?_) k.outputs).trans ?_
    · dsimp only
      by_cases ho : o ∈ seen
      · rw [if_pos (contains_iff_mem.mpr ho)]
        refine iff_of_false (fun h => ?_) fun h => h.2 ho
        obtain ⟨_, -, h⟩ := exists_of_bind_eq_ok h
        cases h
      · rw [if_neg (by simpa using ho), pure_eq_zero_iff]
        exact (and_iff_left ho).symm
    · rw [idles_cons_iff]
      simp

theorem dropRepeatedEdges_eq_zero_iff : net.dropRepeatedEdges = .ok (net', 0) ↔ net' = net ∧
    ∀ c k, net.get? c = some k → k.outputs.Nodup := by
  have hstep : ∀ (net : Network) (total : Nat) (c : CompId) (net' : Network), (do
      let r ← net.dropRepeatedOutputs c
      return (r.1, total + r.2) : Checked (Network × Nat)) = .ok (net', 0) ↔
      (total = 0 ∧ net' = net) ∧ ∃ k, net.get? c = some k ∧ k.outputs.Nodup := by
    intro net total c net'
    constructor
    · intro h
      obtain ⟨⟨net₁, n⟩, hr, h⟩ := exists_of_bind_eq_ok h
      obtain ⟨rfl, hsum⟩ := Prod.mk.inj (Except.ok.inj h)
      obtain ⟨rfl, rfl⟩ := Nat.add_eq_zero_iff.mp hsum
      obtain ⟨rfl, hnd⟩ := dropRepeatedOutputs_eq_zero_iff.mp hr
      exact ⟨⟨rfl, rfl⟩, hnd⟩
    · rintro ⟨⟨rfl, rfl⟩, hnd⟩
      rw [dropRepeatedOutputs_eq_zero_iff.mpr ⟨rfl, hnd⟩]
      rfl
  have hfold : (net.ids.foldlM (fun x c => do
      let r ← x.1.dropRepeatedOutputs c
      return (r.1, x.2 + r.2)) (net, 0) : Checked (Network × Nat)) = .ok (net', 0) ↔ net' = net ∧
        ∀ c k, net.get? c = some k → k.outputs.Nodup := by
    rw [foldlM_eq_zero_iff fun s n c s' h => ((hstep s n c s').mp h).1]
    simp only [hstep, true_and]
    refine and_congr_right fun _ => ⟨fun h c k hk => ?_, fun h c hc => ?_⟩
    · obtain ⟨k', hk', hnd⟩ := h c (mem_ids.mpr (contains_of_get? hk))
      cases hk.symm.trans hk'
      exact hnd
    · obtain ⟨k, hk⟩ := contains_iff.mp (mem_ids.mp hc)
      exact ⟨k, hk, h c k hk⟩
  rw [← hfold]
  unfold dropRepeatedEdges
  constructor
  · intro h
    obtain ⟨⟨net₁, total⟩, hr, h⟩ := exists_of_bind_eq_ok h
    dsimp only at h
    split at h
    · next h0 =>
      cases h
      exact h0 ▸ hr
    next h0 =>
    obtain ⟨_, -, h⟩ := exists_of_bind_eq_ok h
    cases h
    exact absurd rfl h0
  · intro h
    exact congrArg (· >>= _) h

end Repeated

end Network

/-! ## Idle passes -/

namespace Optimize

open Network

def Idle (mode : Mode) (net : Network) : Prop :=
  ∀ p ∈ passes mode (net.protectedIds true), p.run net = .ok (net, 0)

/-- A pass that counts no change has made none, and finds nothing to do when the thresholds are fitted
either. -/
def Pass.Steady (p : Pass) : Prop :=
  ∀ net net', p.run net = .ok (net', 0) →
    net' = net ∧ p.run net.fitAllThresholds = .ok (net.fitAllThresholds, 0)

section Steady

variable {mode : Mode} {keep : List CompId} (name : String)

theorem steady_removeDeadEnds : Pass.Steady ⟨name, (·.removeDeadEnds keep)⟩ := by
  intro net net' h
  obtain ⟨rfl, hkept⟩ := removeDeadEnds_eq_zero_iff.mp h
  refine ⟨rfl, removeDeadEnds_eq_zero_iff.mpr ⟨rfl, forall_fitAllThresholds fun c k hk ho => ?_⟩⟩
  rw [Component.outputs_fitThresholds] at ho
  rw [Component.op_fitThresholds]
  exact hkept c k hk ho

theorem steady_shareGates : Pass.Steady ⟨name, shareGates⟩ := by
  intro net net' h
  obtain ⟨rfl, hkeys⟩ := shareGates_eq_zero_iff.mp h
  have hsame : ∀ k : Component, gateKey k.fitThresholds = gateKey k := by
    intro k
    rw [gateKey, gateKey, Component.op_fitThresholds, Component.inputs_fitThresholds]
  refine ⟨rfl, shareGates_eq_zero_iff.mpr ⟨rfl, fun c d _ _ hc hd => ?_⟩⟩
  rw [get?_fitAllThresholds] at hc hd
  obtain ⟨k, hk, rfl⟩ := Option.map_eq_some_iff.mp hc
  obtain ⟨k', hk', rfl⟩ := Option.map_eq_some_iff.mp hd
  rw [hsame, hsame, Component.isGate, Component.op_fitThresholds, Component.inputs_fitThresholds]
  exact hkeys c d k k' hk hk'

theorem steady_factor {x y : Op} {kind : Kind} (hx : Kind.ofOp? x = some kind) :
    Pass.Steady ⟨name, (·.factor x y)⟩ := by
  intro net net' h
  obtain ⟨rfl, hnone⟩ := (factor_eq_zero_iff hx).mp h
  refine ⟨rfl, (factor_eq_zero_iff hx).mpr ⟨rfl, forall_fitAllThresholds fun c k hk hy => ?_⟩⟩
  rw [Component.op_fitThresholds] at hy
  rw [factorable?_fitAllThresholds]
  exact hnone c k hk hy

theorem steady_removePassThrough {ops : List Op} : Pass.Steady ⟨name, (·.removePassThrough ops keep)⟩ := by
  intro net net' h
  obtain ⟨rfl, hnone⟩ := removePassThrough_eq_zero_iff.mp h
  refine ⟨rfl, removePassThrough_eq_zero_iff.mpr ⟨rfl, forall_fitAllThresholds fun c k hk => ?_⟩⟩
  rw [Component.op_fitThresholds, Component.inputs_fitThresholds, Component.outputs_fitThresholds]
  exact hnone c k hk

theorem steady_dropRepeatedEdges : Pass.Steady ⟨name, dropRepeatedEdges⟩ := by
  intro net net' h
  obtain ⟨rfl, hnd⟩ := dropRepeatedEdges_eq_zero_iff.mp h
  refine ⟨rfl, dropRepeatedEdges_eq_zero_iff.mpr ⟨rfl, forall_fitAllThresholds fun c k hk => ?_⟩⟩
  rw [Component.outputs_fitThresholds]
  exact hnd c k hk

theorem steady_removeDoubleNegations : Pass.Steady ⟨name, removeDoubleNegations⟩ := by
  intro net net' h
  obtain ⟨rfl, hnone⟩ := removeDoubleNegations_eq_zero_iff.mp h
  refine ⟨rfl, removeDoubleNegations_eq_zero_iff.mpr ⟨rfl, forall_fitAllThresholds fun c k hk => ?_⟩⟩
  rw [doublyNegated?_fitAllThresholds]
  exact hnone c k hk

theorem steady_flatten {op : Op} : Pass.Steady ⟨name, (·.flatten op)⟩ := by
  intro net net' h
  obtain ⟨rfl, hnone⟩ := flatten_eq_zero_iff.mp h
  refine ⟨rfl, flatten_eq_zero_iff.mpr ⟨rfl, forall_fitAllThresholds fun c k hk => ?_⟩⟩
  rw [mergesForward_fitAllThresholds]
  exact hnone c k hk

theorem mem_of_mem_ite {b : Bool} {ps : List Pass} {p : Pass} (h : p ∈ if b then ps else []) : p ∈ ps := by
  split at h
  · exact h
  · cases h

theorem steady_of_mem {p : Pass} (hp : p ∈ passes mode keep) : p.Steady := by
  simp only [passes, mem_append, mem_cons, not_mem_nil, or_false] at hp
  rcases hp with (((rfl | rfl) | hp) | (rfl | rfl)) | hp
  · exact steady_removeDeadEnds _
  · exact steady_shareGates _
  · have hp := mem_of_mem_ite hp
    simp only [mem_cons, not_mem_nil, or_false] at hp
    rcases hp with rfl | rfl | rfl | rfl | rfl
    · exact steady_factor _ rfl
    · exact steady_factor _ rfl
    · exact steady_factor _ rfl
    · exact steady_factor _ rfl
    · exact steady_shareGates _
  · exact steady_removePassThrough _
  · exact steady_dropRepeatedEdges _
  · have hp := mem_of_mem_ite hp
    simp only [mem_cons, not_mem_nil, or_false] at hp
    rcases hp with rfl | rfl | rfl
    · exact steady_removeDoubleNegations _
    · exact steady_flatten _
    · exact steady_flatten _

end Steady

/-! ## Rounds -/

section Rounds

variable {mode : Mode} {net : Network}

theorem Idle.fitAllThresholds (h : Idle mode net) : Idle mode net.fitAllThresholds :=
  fun p hp => (steady_of_mem hp net net (h p hp)).2

theorem round_idle (mode : Mode) (net : Network) :
    (round mode net).Ensures fun r => r.2 = 0 → r.1 = net ∧ Idle mode net := by
  refine (Observed.partly.foldlM (fun rest (s : Network × Nat) =>
    (∀ p ∈ rest, p ∈ passes mode (net.protectedIds true)) ∧ (s.2 = 0 → s.1 = net ∧
      ∀ p ∈ passes mode (net.protectedIds true), p ∉ rest → p.run net = .ok (net, 0)))
    (fun p rest s hs => ?_) _ (net, 0) ⟨fun _ h => h, fun _ => ⟨rfl, fun p hp hn => absurd hp hn⟩⟩).mono
    fun r hr hn => ⟨(hr.2 hn).1, fun p hp => (hr.2 hn).2 p hp not_mem_nil⟩
  obtain ⟨net1, n⟩ := s
  obtain ⟨hmem, hidle⟩ := hs
  dsimp only at hidle
  refine .bind (.lift (fun _ hr => hr : (p.run net1).Ensures fun r => p.run net1 = .ok r)) fun r hr => ?_
  refine .bind (.tell (P := fun _ => True) trivial) fun _ _ => .pure ⟨fun q hq => ?_, fun hn => ?_⟩
  · exact hmem q (mem_cons_of_mem _ hq)
  obtain ⟨net2, m⟩ := r
  obtain ⟨rfl, rfl⟩ : n = 0 ∧ m = 0 := Nat.add_eq_zero_iff.mp hn
  obtain ⟨rfl, hrest⟩ := hidle rfl
  obtain ⟨rfl, -⟩ := steady_of_mem (hmem p mem_cons_self) net1 net2 hr
  refine ⟨rfl, fun q hq hqr => ?_⟩
  by_cases hqp : q = p
  · rw [hqp]
    exact hr
  · exact hrest q hq fun hm => hqr ((mem_cons.mp hm).resolve_left hqp)

theorem run_idle (hm : mode.once = false) (bound : Nat) (s : Network × Nat) :
    (Loop.run bound (turn mode) s).Ensures fun r => Idle mode r.1 := by
  refine Observed.partly.run_of_exhausted (fun _ => True) _ (fun s _ => ?_) .throw trivial
  refine .bind (round_idle mode s.1) fun r hr => .pure ?_
  rw [hm, Bool.false_or]
  split
  · next hn =>
    obtain ⟨heq, hidle⟩ := hr (beq_iff_eq.mp hn)
    change Idle mode r.1
    rw [heq]
    exact hidle
  · exact trivial

theorem Idle.round (h : Idle mode net) : (round mode net).Yields fun r => r = (net, 0) := by
  refine (Observed.total.foldlM (fun (rest : List Pass) (s : Network × Nat) =>
    (∀ p ∈ rest, p.run net = .ok (net, 0)) ∧ s = (net, 0)) (fun p rest s hs => ?_) _ (net, 0)
    ⟨h, rfl⟩).mono fun r hr => hr.2
  obtain ⟨hidle, rfl⟩ := hs
  refine (runPass_yields (P := fun r => r = (net, 0)) ⟨_, hidle p mem_cons_self, rfl⟩).mono
    fun r hr => ⟨(forall_mem_cons.mp hidle).2, ?_⟩
  obtain ⟨m, hm, hn⟩ := hr
  obtain ⟨h1, rfl⟩ := Prod.mk.inj hm
  exact Prod.ext h1 hn

theorem Idle.run (h : Idle mode net) (bound : Nat) :
    (Loop.run bound (turn mode) (net, 0)).Yields fun r => r = (net, 0) := by
  refine Observed.total.run (fun s => s = (net, 0)) (fun _ => 0) (fun r => r = (net, 0)) (fun s hs => ?_)
    rfl (Loop.allowance_pos _)
  subst hs
  refine .bind h.round fun r hr => .pure ?_
  subst hr
  rw [beq_self_eq_true, Bool.or_true, if_pos rfl]
  exact rfl

end Rounds

end Optimize

/-! ## Normal forms -/

namespace Network

structure Normal (all : Bool) (net : Network) : Prop where
  /-- only what has a part in the game, and constants, may be read by nothing -/
  read : ∀ c k, net.get? c = some k → c ∉ net.protectedIds true → k.op ≠ .constant → k.outputs ≠ []
  single : ∀ c k, net.get? c = some k → k.outputs.Nodup
  shared : ∀ c d k k', net.get? c = some k → net.get? d = some k' → k.isGate = true → k'.op = k.op →
    k.inputs ≠ [] → k'.inputs.Perm k.inputs → d = c
  spliced : ∀ c k, net.get? c = some k → c ∉ net.protectedIds true →
    k.op = .and ∨ k.op = .or ∨ k.op = .proposition → k.outputs ≠ [] → k.inputs.length ≠ 1
  negated : all = true → ∀ c k i ki, net.get? c = some k → k.op = .not → k.outputs ≠ [] →
    k.inputs = [i] → net.get? i = some ki → ki.op = .not → ki.inputs.length ≠ 1
  flat : all = true → ∀ c k, net.get? c = some k → k.op = .and ∨ k.op = .or → k.inputs ≠ [] →
    k.outputs ≠ [] → ∃ o ∈ k.outputs, net.op? o ≠ some k.op

theorem Acyclic.not_mem_outputs {net : Network} (ha : net.Acyclic) (hb : net.Balanced) {c x : CompId}
    {k : Component} (hk : net.get? c = some k) (hx : Relation.ReflTransGen net.Feeds x c) :
    x ∉ k.outputs := by
  intro hm
  have hfeeds : net.Feeds c x := hb.mem_iff.mp (by rwa [outputsOf_of_get? hk])
  exact ha x (.tail' hx hfeeds)

end Network

namespace Optimize

open Network

section Normal

variable {mode : Mode} {net : Network}

theorem Idle.doublyNegated? (h : Idle mode net) (hm : mode.allPasses) {c : CompId}
    {k : Component} (hk : net.get? c = some k) : net.doublyNegated? c k = .ok none :=
  (removeDoubleNegations_eq_zero_iff.mp
    (h ⟨"double_negation", removeDoubleNegations⟩ (by simp [passes, hm]))).2 c k hk

theorem Idle.mergesForward (h : Idle mode net) (hm : mode.allPasses) {c : CompId}
    {k : Component} (hk : net.get? c = some k) (hop : k.op = .and ∨ k.op = .or) :
    net.mergesForward k.op c k = .ok false := by
  rcases hop with hop | hop <;> rw [hop]
  · exact (flatten_eq_zero_iff.mp (h ⟨"flatten_and", (·.flatten .and)⟩ (by simp [passes, hm]))).2 c k hk
  · exact (flatten_eq_zero_iff.mp (h ⟨"flatten_or", (·.flatten .or)⟩ (by simp [passes, hm]))).2 c k hk

/-- In an acyclic network the guards of the passes against cycles never hold them back. -/
theorem Idle.normal (h : Idle mode net) (hb : net.Balanced) (ha : net.Acyclic) :
    net.Normal mode.allPasses where
  read c k hk hc hop ho := by
    have hdead := removeDeadEnds_eq_zero_iff.mp
      (h ⟨"unlink_deadends", (·.removeDeadEnds (net.protectedIds true))⟩ (by simp [passes]))
    rcases hdead.2 c k hk ho with hm | hm
    · exact hc hm
    · exact hop hm
  single := (dropRepeatedEdges_eq_zero_iff.mp
    (h ⟨"sanitize_outputs", dropRepeatedEdges⟩ (by simp [passes]))).2
  shared c d k k' hk hk' hg hop hi hp := by
    have hkeys := shareGates_eq_zero_iff.mp (h ⟨"subexpr_elimination", shareGates⟩ (by simp [passes]))
    refine (hkeys.2 c d k k' hk hk' hg hi ?_).symm
    rw [gateKey, gateKey, hop, CompId.sorted_eq_sorted_iff.mpr hp]
  spliced c k hk hc hop ho hlen := by
    obtain ⟨x, hx⟩ := length_eq_one_iff.mp hlen
    have hpass := removePassThrough_eq_zero_iff.mp
      (h ⟨"unlink_passthrough", (·.removePassThrough [.and, .or, .proposition] (net.protectedIds true))⟩
        (by simp [passes]))
    have hfeeds : net.Feeds x c := by
      change x ∈ net.inputsOf c
      rw [inputsOf_of_get? hk, hx]
      exact mem_singleton_self x
    rcases hpass.2 c k hk (by simpa using hop) hc x hx with h0 | hm | rfl
    · exact ho h0
    · exact ha.not_mem_outputs hb hk (.single hfeeds) hm
    · exact ha x (.single hfeeds)
  negated hm c k i ki hk hop ho hi hki hopi hlen := by
    obtain ⟨x, hx⟩ := length_eq_one_iff.mp hlen
    have hxi : net.Feeds x i := by
      change x ∈ net.inputsOf i
      rw [inputsOf_of_get? hki, hx]
      exact mem_singleton_self x
    have hic : net.Feeds i c := by
      change i ∈ net.inputsOf c
      rw [inputsOf_of_get? hk, hi]
      exact mem_singleton_self i
    have hxc : x ≠ c := by
      rintro rfl
      exact ha x (.tail (.single hxi) hic)
    have hout : x ∉ k.outputs := ha.not_mem_outputs hb hk (.tail (.single hxi) hic)
    have hnone := h.doublyNegated? hm hk
    rw [Network.doublyNegated?, if_neg (by simp [hop, ho]), hi] at hnone
    obtain ⟨_, hget, hnone⟩ := exists_of_bind_eq_ok hnone
    cases hget.symm.trans (get_of_get? hki)
    simp only [hopi, hx, hxc, decide_true, decide_false, Bool.false_or, contains_iff_mem, hout,
      if_false] at hnone
    cases hnone
  flat hm c k hk hop hi ho := by
    by_contra hall
    simp only [not_exists, not_and, not_not] at hall
    have hsame : k.outputs.allM (fun o => do return decide ((← net.op o) = k.op)) = .ok true := by
      rw [Checked.allM_yields (g := fun _ => true) k.outputs fun o hm => ?_]
      · simp
      obtain ⟨ko, hko, hop⟩ := Option.map_eq_some_iff.mp (hall o hm)
      rw [Network.op, get_of_get? hko]
      exact congrArg Except.ok (decide_eq_true hop)
    have hfalse := h.mergesForward hm hk hop
    rw [Network.mergesForward, if_neg (by simp [hi, ho]), hsame] at hfalse
    have hany : (k.outputs.any fun o => o == c || k.inputs.contains o) = true := by
      simpa using Except.ok.inj hfalse
    obtain ⟨o, hm, hor⟩ := any_eq_true.mp hany
    refine ha.not_mem_outputs hb hk (x := o) ?_ hm
    rcases Bool.or_eq_true_iff.mp hor with h | h
    · rw [beq_iff_eq.mp h]
    refine .single ?_
    change o ∈ net.inputsOf c
    rw [inputsOf_of_get? hk]
    simpa using h

theorem Idle.optimize (h : Idle mode net) (hfit : net.fitAllThresholds = net) :
    (net.optimize mode).Yields fun r => r = (net, 0) := by
  refine .bind (h.run _) fun r hr => .pure ?_
  rw [hr, hfit]

end Normal

end Optimize

namespace Network

/-- The optimizer, where it runs until nothing changes, leaves every pass idle and all thresholds
fitted. -/
theorem optimize_idle {mode : Optimize.Mode} (hm : mode.once = false) (net : Network) :
    (net.optimize mode).Ensures fun r => Optimize.Idle mode r.1 ∧ r.1.fitAllThresholds = r.1 :=
  .bind (Optimize.run_idle hm _ (net, 0)) fun r hr => .pure
    ⟨hr.fitAllThresholds, r.1.fitAllThresholds_fitAllThresholds⟩

/-- The optimizer, where it runs until nothing changes, reaches a normal form, and a second run leaves
it as it is. -/
theorem optimize_normal (net : Network) (mode : Optimize.Mode) (hm : mode.once = false)
    (hb : net.Balanced) (ha : net.Acyclic) (hp : net.PartsPlayed) :
    ∃ net' n, (net.optimize mode).listen.1 = .ok (net', n) ∧ net'.Normal mode.allPasses ∧
      (net'.optimize mode).listen.1 = .ok (net', 0) := by
  obtain ⟨⟨net', n⟩, hrun, hs, -⟩ := optimize_yields mode hb ha hp #[]
  obtain ⟨hidle, hfit⟩ := optimize_idle hm net #[] _ hrun
  obtain ⟨r, hsecond, rfl⟩ := hidle.optimize hfit #[]
  exact ⟨net', n, hrun, hidle.normal hs.balanced hs.acyclic, hsecond⟩

theorem optimize_normal_lamp : lamp.Balanced ∧ lamp.Acyclic ∧ lamp.PartsPlayed ∧
    ∃ net' n, (lamp.optimize { once := false, allPasses := true }).listen.1 = .ok (net', n) ∧
      net'.Normal true ∧
      (net'.optimize { once := false, allPasses := true }).listen.1 = .ok (net', 0) := by
  have hp : lamp.PartsPlayed := by decide
  exact ⟨lamp_balanced, lamp_acyclic, hp,
    optimize_normal lamp { once := false, allPasses := true } rfl lamp_balanced lamp_acyclic hp⟩

end Network

end GameNet
