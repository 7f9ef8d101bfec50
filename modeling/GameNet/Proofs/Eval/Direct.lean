import GameNet.Proofs.InPlace

/-!
Counting from scratch is evaluation.

The components without inputs have values of their own, and they decide the value of every component
upstream of the roots.
-/

namespace GameNet

namespace Component

def IsLeaf (k : Component) : Prop := k.inputs = [] ∧ k.op ≠ .and ∧ k.op ≠ .or

instance (k : Component) : Decidable k.IsLeaf := inferInstanceAs (Decidable (_ ∧ _))

def idleValue (k : Component) : Bool :=
  match k.op with
  | .and => true
  | .or => false
  | .not => !decide (0 < k.count)
  | _ => decide (0 < k.count)

theorem Standard.value_of_idle {k : Component} (h : k.Standard) (hi : k.inputs = []) {n : Int}
    (hn : n = if k.IsLeaf then k.count else 0) : (k.counting n).value = k.idleValue := by
  have hop : (k.counting n).op = k.op := rfl
  have hreq : (k.counting n).reqTrue = if k.op = .and then 0 else 1 := by
    rw [(h.counting n).reqTrue, hop]
    change (if k.op = .and then ((k.inputs.length : Nat) : Int) else 1) = _
    rw [hi]
    rfl
  have hleaf : k.IsLeaf ↔ k.op ≠ .and ∧ k.op ≠ .or := and_iff_right hi
  rw [if_congr hleaf rfl rfl] at hn
  have hpos : 1 ≤ k.count ↔ 0 < k.count := Iff.rfl
  rw [value, hreq, (h.counting n).sign, hop]
  change (decide (_ ≤ n) != _) = _
  rw [hn, idleValue]
  cases k.op <;> simp [hpos]

end Component

namespace Network

def direct (net : Network) : CompId → Bool :=
  net.eval fun c => (net.get? c).elim false Component.idleValue

def directCount (net : Network) (c : CompId) : Int :=
  (net.get? c).elim 0 fun k =>
    if k.IsLeaf then k.count else (k.inputs.countP net.direct : Nat)

structure Evaluable (net : Network) : Prop where
  acyclic : net.Acyclic
  standard : net.Standard
  narrow : net.Narrow
  /-- no proposition takes its value from the last turn -/
  present : ∀ c k, net.get? c = some k → k.op = .proposition →
    ∀ t ∈ k.inputs, net.op? t ≠ some .transition
  set : ∀ c k, net.get? c = some k → k.IsLeaf → k.count ≠ unset

section Direct

variable {net net' : Network} {roots : List CompId} {c : CompId} {k : Component}

theorem directCount_of_get? (hk : net.get? c = some k) :
    net.directCount c = if k.IsLeaf then k.count else (k.inputs.countP net.direct : Nat) := by
  rw [directCount, hk, Option.elim_some]

theorem Evaluable.isLeaf_of_held (he : net.Evaluable) (hk : net.get? c = some k) (hand : k.op ≠ .and)
    (hor : k.op ≠ .or) (hheld : Recount.Held net k) : k.IsLeaf := by
  refine ⟨?_, hand, hor⟩
  rcases hheld with hi | hop | ⟨hop, t, hi, ht⟩
  · exact hi
  · exact (he.narrow c k hk).2 hop
  · exact absurd ht (he.present c k hk hop t (by rw [hi]; exact List.mem_singleton_self t))

theorem Evaluable.countable (he : net.Evaluable) : Recount.Countable net := fun c k hk hand hor =>
  ⟨fun hheld => he.set c k hk (he.isLeaf_of_held hk hand hor hheld),
    fun _ => (he.narrow c k hk).1 hand hor⟩

theorem Evaluable.valueAt_eq (he : net.Evaluable) (hr : Recounts net net') (hc : net.contains c)
    (hcount : net'.countAt c = net.directCount c) : net'.valueAt c = net.direct c := by
  obtain ⟨k, hk⟩ := contains_iff.mp hc
  obtain ⟨n, hk'⟩ := hr.get? hk
  rw [countAt_of_get? hk', directCount_of_get? hk] at hcount
  rw [valueAt_of_get? hk']
  have hn : n = if k.IsLeaf then k.count else (k.inputs.countP net.direct : Nat) := hcount
  by_cases hi : k.inputs = []
  · -- nothing to read: the value comes from the count alone
    have hin : net.inputsOf c = [] := by rw [inputsOf_of_get? hk, hi]
    rw [direct, eval_of_source _ hin, hk, Option.elim_some]
    refine (he.standard c k hk).value_of_idle hi ?_
    rw [hi] at hn
    exact hn
  · -- a component that has counted its true inputs reads them, and so does the evaluation
    have hin : net.inputsOf c ≠ [] := by rwa [inputsOf_of_get? hk]
    rw [if_neg fun hleaf => hi hleaf.1] at hn
    rw [((he.standard c k hk).counting n).value_eq_read hn]
    have hobeys : net.Obeys net.direct := he.acyclic.obeys_eval _
    rw [hobeys c k.op (op?_of_get? hk) hin, inputsOf_of_get? hk]
    rfl

theorem Recounted.countAt_eq (h : net.Recounted roots net') (he : net.Evaluable)
    (hroots : net.Rooted roots) (hc : net.Upstream roots c) : net'.countAt c = net.directCount c := by
  obtain ⟨depth, hdepth, -⟩ := he.acyclic.exists_depth
  -- a leaf keeps its count, so only inputs that have inputs themselves need to be deeper
  have hleaf : ∀ c k, net.get? c = some k → k.IsLeaf → net'.countAt c = net.directCount c := by
    intro c k hk hl
    rw [h.held c k hk hl.2.1 hl.2.2 (.inl hl.1), countAt_of_get? hk, directCount_of_get? hk, if_pos hl]
  have hcounted : ∀ c k, net.Upstream roots c → net.get? c = some k → ¬ k.IsLeaf →
      net'.countAt c = (k.inputs.countP net'.valueAt : Nat) := by
    intro c k hc hk hl
    obtain ⟨n, hk'⟩ := h.recounts.get? hk
    have hexact := h.exact c hc _ hk'
    rw [countAt_of_get? hk']
    by_cases hgate : k.op = .and ∨ k.op = .or
    · exact hexact.gate hgate
    have hgate' := not_or.mp hgate
    refine (hexact.fed hgate'.1 hgate'.2 fun hheld => hl ?_).2
    have hback := hheld.of_recounts h.recounts.symm k.count
    exact he.isLeaf_of_held hk hgate'.1 hgate'.2 hback
  -- induction on the depth: inputs are counted before what reads them
  induction hn : depth c using Nat.strong_induction_on generalizing c with
  | _ n ih =>
    obtain ⟨k, hk⟩ := contains_iff.mp (hroots c hc)
    by_cases hl : k.IsLeaf
    · exact hleaf c k hk hl
    rw [hcounted c k hc hk hl, directCount_of_get? hk, if_neg hl]
    refine congrArg Nat.cast (List.countP_congr fun i hi => ?_)
    have hin : i ∈ net.inputsOf c := by rwa [inputsOf_of_get? hk]
    have hup := hc.input hin
    obtain ⟨ki, hki⟩ := contains_iff.mp (hroots i hup)
    have hcount : net'.countAt i = net.directCount i := by
      by_cases hfed : net.inputsOf i = []
      · rw [inputsOf_of_get? hki] at hfed
        by_cases hli : ki.IsLeaf
        · exact hleaf i ki hki hli
        · rw [hcounted i ki hup hki hli, directCount_of_get? hki, if_neg hli, hfed]
          rfl
      · exact ih (depth i) (hn ▸ hdepth i c hin hfed) hup rfl
    rw [he.valueAt_eq h.recounts (hroots i hup) hcount]

theorem Evaluable.sure (he : net.Evaluable) (hroots : net.Rooted roots)
    (hcount : ∀ c, net.Upstream roots c → net.countAt c = net.directCount c) :
    Recount.Sure net (net.Upstream roots) where
  live := hroots
  input _ hc _ hi := hc.input hi
  set c k hc hk := by
    have hk' := hcount c hc
    rw [countAt_of_get? hk, directCount_of_get? hk] at hk'
    by_cases hl : k.IsLeaf
    · exact he.set c k hk hl
    rw [if_neg hl] at hk'
    rw [hk']
    unfold unset
    omega
  one c k _ hk := (he.narrow c k hk).1
  counted c k hc hk h := by
    have hk' := hcount c hc
    have hl : ¬ k.IsLeaf := by
      rintro ⟨hi, hand, hor⟩
      rcases h with hop | hop | hne
      · exact hand hop
      · exact hor hop
      · exact hne hi
    rw [countAt_of_get? hk, directCount_of_get? hk, if_neg hl] at hk'
    rw [hk']
    refine congrArg Nat.cast (List.countP_congr fun i hi => ?_)
    have hup : net.Upstream roots i := hc.input (by rwa [inputsOf_of_get? hk])
    rw [he.valueAt_eq (.refl net) (hroots i hup) (hcount i hup)]

end Direct

/-- Counting anew writes what evaluation gives upstream of the roots and nothing else, and comparing
succeeds if that is what stands there already. On any network, with cycles or without, comparing changes
nothing whatever its outcome, and so do all checks. -/
theorem recount_evaluates (net : Network) (roots : List CompId) :
    (net.Evaluable → net.Rooted roots →
      (∃ net', net.recount roots false = .ok net' ∧
        (recountInPlace roots false).on net = (.ok (), net') ∧ Recounts net net' ∧
        (∀ c, net.Upstream roots c →
          net'.countAt c = net.directCount c ∧ net'.valueAt c = net.direct c) ∧
        ∀ c, ¬ net.Upstream roots c → net'.countAt c = net.countAt c) ∧
      ((∃ net', net.recount roots true = .ok net') ↔
        ∀ c, net.Upstream roots c → net.countAt c = net.directCount c)) ∧
    (recountInPlace roots true).on net = ((net.recount roots true).map fun _ => (), net) ∧
    ∀ level maxFanIn, (verifyInPlace level maxFanIn).on net = (net.verify level maxFanIn, net) := by
  refine ⟨fun he hroots => ⟨?_, ⟨?_, fun hcount => ?_⟩⟩, recountInPlace_compare net roots,
    verifyInPlace_on net⟩
  · obtain ⟨net', hre, h⟩ := recount_yields_of_rooted he.acyclic he.countable hroots
    refine ⟨net', hre, (recountInPlace_follows net roots false).ok net' hre, h.recounts, fun c hc => ?_,
      fun c hc => (h.same c).resolve_right hc⟩
    have hcount := h.countAt_eq he hroots hc
    exact ⟨hcount, he.valueAt_eq h.recounts (hroots c hc) hcount⟩
  · rintro ⟨net', hre⟩ c hc
    have h := recount_ensures he.acyclic roots true net' hre
    rw [← h.countAt_eq he hroots hc, recount_compare_ensures net roots net' hre]
  · exact ⟨net, recount_of_sure (he.sure hroots hcount) (fun _ => .root) true⟩

/-- The lamp is lit and nothing has heard of it. Counting what drives it and what ends the game puts that
right. Comparing reports it. -/
theorem recount_evaluates_lamp :
    (lamp.recount1 0 1).Evaluable ∧ (lamp.recount1 0 1).Rooted [1, 4] ∧
      (∃ net', (lamp.recount1 0 1).recount [1, 4] false = .ok net' ∧
        net'.countAt 5 = 2 ∧ net'.countAt 6 = 0 ∧ net'.countAt 4 = 1) ∧
      ¬ ∃ net', (lamp.recount1 0 1).recount [1, 4] true = .ok net' := by
  have hr := recounts_recount1 lamp 0 1
  have he : (lamp.recount1 0 1).Evaluable :=
    ⟨hr.acyclic lamp_acyclic, hr.standard (by decide), hr.narrow (by decide),
      forall_components.mpr (by decide), forall_components.mpr (by decide)⟩
  have hroots : (lamp.recount1 0 1).Rooted [1, 4] := (hr.balanced lamp_balanced).rooted (by decide)
  have h1 : (lamp.recount1 0 1).Upstream [1, 4] 1 := .root (by decide)
  have h4 : (lamp.recount1 0 1).Upstream [1, 4] 4 := .root (by decide)
  have h5 : (lamp.recount1 0 1).Upstream [1, 4] 5 := h1.input (by decide)
  have h6 : (lamp.recount1 0 1).Upstream [1, 4] 6 := h5.input (by decide)
  obtain ⟨hwork, -⟩ := recount_evaluates (lamp.recount1 0 1) [1, 4]
  obtain ⟨⟨net', hre, -, -, hcount, -⟩, hcompare⟩ := hwork he hroots
  refine ⟨he, hroots, ⟨net', hre, ?_, ?_, ?_⟩, fun hok => ?_⟩
  · exact (hcount 5 h5).1.trans (by decide)
  · exact (hcount 6 h6).1.trans (by decide)
  · exact (hcount 4 h4).1.trans (by decide)
  · exact absurd (hcompare.mp hok 4 h4) (by decide)

end Network

end GameNet
