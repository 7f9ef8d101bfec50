import GameNet.Proofs.Compile.Stages
import GameNet.Proofs.Listing.Acyclic

/-!
The checks that the compiler can make of its own result never fail.
-/

namespace GameNet

open List

namespace Network

/-! ## What the checks ask for -/

section Checks

variable {net : Network} {c : CompId} {k : Component}

theorem verifyEdges_eq_ok_iff : net.verifyEdges c k = .ok () ↔
    (∀ o ∈ k.outputs, c ∈ net.inputsOf o) ∧ ∀ i ∈ k.inputs, c ∈ net.outputsOf i :=
  (answered_eq_ok_iff Component.inputs).trans
    (and_congr_right' ((answered_eq_ok_iff Component.outputs).trans (and_iff_left rfl)))

theorem verifyGate_eq_ok {cap : Nat} (hcount : k.isGate → 0 ≤ k.count ∧ k.count ≤ k.inputs.length)
    (hand : k.op = .and → k.reqTrue = k.inputs.length ∧ k.reqFalse = k.inputs.length - 1)
    (hnot : k.op = .not → k.inputs.length ≤ 1) (hcap : 0 < cap → k.inputs.length ≤ cap) :
    net.verifyGate cap c k = .ok () := by
  have hrange : ¬ (k.isGate && (decide (k.count < 0) || decide ((k.inputs.length : Int) < k.count))) =
      true := by
    simp only [Bool.and_eq_true, Bool.or_eq_true, decide_eq_true_eq]
    rintro ⟨hg, h⟩
    have := hcount hg
    omega
  have hfit : ¬ (k.op = .and ∧ (k.reqTrue ≠ k.inputs.length ∨ k.reqFalse ≠ k.reqTrue - 1)) := by
    rintro ⟨hop, h⟩
    have := hand hop
    omega
  have hone : ¬ (k.op = .not ∧ 1 < k.inputs.length) := by
    rintro ⟨hop, h⟩
    have := hnot hop
    omega
  have hmax : ¬ (0 < cap ∧ cap < k.inputs.length) := by
    rintro ⟨h, h'⟩
    have := hcap h
    omega
  simp only [verifyGate, if_neg hrange, if_neg hfit, if_neg hone, if_neg hmax]
  rfl

theorem verifyBase_eq_ok {b t : CompId} (hb : net.contains b) (hin : net.inputsOf b = [])
    (ht : net.kind? t = some (.transition (some b))) (hone : (net.inputsOf t).length ≤ 1) :
    net.verifyBase b t = .ok () := by
  obtain ⟨bk, hbk⟩ := contains_iff.mp hb
  obtain ⟨tk, htk, hkind⟩ := Option.map_eq_some_iff.mp ht
  rw [inputsOf_of_get? hbk] at hin
  rw [inputsOf_of_get? htk] at hone
  have hdriven : tk.drivenBase? = some b := by rw [Component.drivenBase?, hkind]
  have hnone : ¬ 1 < bk.inputs.length := by rw [hin]; decide
  simp only [verifyBase, hbk, htk, if_neg hnone, if_neg (Nat.not_lt.mpr hone), hdriven, ne_eq,
    not_true_eq_false, if_false]
  rfl

theorem verifyPlayer_eq_ok {p : Player} (hlegal : ∀ l ∈ p.legals, net.outputsOf l = [])
    (hpaired : List.Forall₂ (fun l i => net.pairedInput? l = some i) p.legals p.inputs) :
    net.verifyPlayer p = .ok () := by
  have hlen := hpaired.length_eq
  have hall : (p.legals.zip p.inputs).forM (fun x => net.verifyLegal x.1 x.2) = .ok () := by
    refine (Checked.forM_eq_ok_iff _).mpr fun x hx => ?_
    have hl := hlegal x.1 (of_mem_zip hx).1
    have hi := (forall₂_iff_zip.mp hpaired).2 hx
    obtain ⟨k, hk⟩ : ∃ k, net.get? x.1 = some k := by
      cases hk : net.get? x.1 with
      | none => rw [pairedInput?, hk] at hi; cases hi
      | some k => exact ⟨k, rfl⟩
    rw [pairedInput?_of_get? hk] at hi
    rw [outputsOf_of_get? hk] at hl
    simp only [verifyLegal, hk, hl, isEmpty_nil, Bool.not_true, Bool.false_eq_true, if_false, hi, ne_eq,
      not_true_eq_false]
    rfl
  unfold verifyPlayer
  cases hl : p.legals with
  | nil =>
    rw [hl] at hall
    exact hall
  | cons first rest =>
    rw [hl] at hall hlen
    simp only [hlen, ne_eq, not_true_eq_false, if_false]
    exact hall

end Checks

/-! ## Compiled networks pass -/

section Finished

variable {net : Network}

theorem Finished.isCounted (h : net.Finished) (hg : net.Grounded) {c : CompId} {k : Component}
    (hk : net.get? c = some k) (hgate : k.isGate) : 0 ≤ k.count ∧ k.count ≤ k.inputs.length :=
  h.tallied.count_bounds hk (hg c k hk hgate)

theorem Finished.recount_eq (h : net.Finished) (compare : Bool) :
    net.recount net.sinks compare = .ok net := by
  refine recount_of_sure (Recount.Sure.of_tallied h.tallied h.formed.balanced h.narrow h.resting)
    (fun c hc => ?_) compare
  obtain ⟨hlive, hin, -⟩ := mem_sinks.mp hc
  exact ⟨hlive, .inl hin⟩

theorem Finished.checkInvariants_eq_ok (h : net.Finished) (hg : net.Grounded) (ha : net.Aligned)
    {cap : Nat} (hcap : 0 < cap → ∀ c, (net.inputsOf c).length ≤ cap) : net.checkInvariants cap = .ok () := by
  have hcomponents : net.components.forM (fun x => do
      net.verifyEdges x.1 x.2
      net.verifyGate cap x.1 x.2) = .ok () := by
    refine (Checked.forM_eq_ok_iff _).mpr fun x hx => ?_
    have hk := mem_components.mp hx
    refine Checked.check_eq_ok_iff.mpr ⟨verifyEdges_eq_ok_iff.mpr ⟨fun o ho => ?_, fun i hi => ?_⟩, ?_⟩
    · rw [← outputsOf_of_get? hk] at ho
      exact h.formed.balanced.mem_iff.mp ho
    · rw [← inputsOf_of_get? hk] at hi
      exact h.formed.balanced.mem_iff.mpr hi
    · refine verifyGate_eq_ok (h.isCounted hg hk) (h.fitted x.1 x.2 hk) (fun hop => ?_) fun hc => ?_
      · exact (h.narrow x.1 x.2 hk).1 (by rw [hop]; decide) (by rw [hop]; decide)
      · rw [← inputsOf_of_get? hk]
        exact hcap hc x.1
  have hbases : (net.bases.zip net.transitions).forM (fun x => net.verifyBase x.1 x.2) = .ok () := by
    refine (Checked.forM_eq_ok_iff _).mpr fun x hx => ?_
    obtain ⟨hrole, hin⟩ := h.formed.base x.1 (of_mem_zip hx).1
    have hkind := (forall₂_iff_zip.mp h.formed.driven).2 hx
    refine verifyBase_eq_ok (contains_of_isRole hrole) hin hkind ?_
    obtain ⟨k, hk, hkind⟩ := Option.map_eq_some_iff.mp hkind
    have hop : k.op = .transition := by rw [Component.op, hkind]; rfl
    rw [inputsOf_of_get? hk]
    exact (h.narrow x.2 k hk).1 (by rw [hop]; decide) (by rw [hop]; decide)
  have hplayers : net.players.forM net.verifyPlayer = .ok () :=
    (Checked.forM_eq_ok_iff _).mpr fun p hp =>
      verifyPlayer_eq_ok (fun l hl => h.ended l (mem_flatMap.mpr ⟨p, hp, hl⟩)) (ha p hp)
  have hinputs : (forIn net.inputs PUnit.unit fun i _ => do
      if !net.contains i then throw (net.invariant i .moveGone)
      pure (.yield PUnit.unit) : Checked PUnit) = .ok ⟨⟩ := by
    refine (Checked.forIn_eq_ok_iff (p := fun i => net.contains i) _ fun i => ?_).mpr fun i hi =>
      contains_of_isRole (h.formed.inputs i hi)
    cases hi : net.contains i with
    | true => exact .inl ⟨rfl, rfl⟩
    | false => exact .inr ⟨Bool.false_ne_true, _, rfl⟩
  unfold checkInvariants
  refine Checked.check_eq_ok_iff.mpr ⟨hcomponents, ?_⟩
  rw [if_neg (not_not.mpr h.formed.driven.length_eq)]
  refine Checked.check_eq_ok_iff.mpr ⟨hbases, ?_⟩
  refine Checked.check_eq_ok_iff.mpr ⟨hinputs, ?_⟩
  rw [h.formed.terminal]
  exact hplayers

end Finished

end Network

namespace Listing

variable {opts : Options} {cut last net : Network} {l : Listing}

open Network

theorem compiled_of_ok (hb : l.Balanced) (ha : l.Acyclic) {net : Network}
    (h : (l.compile opts).listen.1 = .ok net) : ∃ cut last, Compiled l opts cut last net :=
  compile_ensures l hb ha opts #[] net (by rwa [← Observed.listen_eq])

theorem Compiled.finished (h : Compiled l opts cut last net) : net.Finished := h.finishing.finished

theorem Compiled.unlit (h : Compiled l opts cut last net) : net.Unlit := by
  obtain ⟨lead, init, derived, hled, hd, -, hlater⟩ := h.lineage
  have hf := hled.formed h.formed
  exact h.finishing.unlit (hlater.unlit (hd.formed hf) (hd.unlit hf))

theorem Compiled.width (h : Compiled l opts cut last net) : net.initialState.length = net.bases.length := by
  obtain ⟨lead, init, derived, hled, hd, -, hlater⟩ := h.lineage
  obtain ⟨capped, counted, f, hcapped, hrec, -, -, -, hre⟩ := h.finishing.same
  have hf := hled.formed h.formed
  have hderived : derived.initialState.length = derived.bases.length := by
    rw [hd.width, field_of_parts Network.bases hd.recounts.parts]
    exact hf.driven.length_eq.symm
  have hwidth := (hlater.trans hcapped).width (hd.formed hf).bases_nodup hderived
  rw [← field_of_parts Network.initialState hrec.parts, ← field_of_parts Network.bases hrec.parts] at hwidth
  have hall : List.Forall₂ (fun _ _ => True) counted.bases counted.initialState :=
    forall₂_iff_get.mpr ⟨hwidth.symm, fun _ _ _ => trivial⟩
  exact (hre.start (fun _ _ => True) hall).length_eq.symm

/-- A network that was simplified passes the full check, whatever was checked on the way: its edges, counts,
thresholds and fan-ins are right, and bases and legals stand where their transitions and inputs do. -/
theorem verify_of_compile (l : Listing) (hb : l.Balanced) (ha : l.Acyclic) (opts : Options)
    (hlevel : opts.level = .fast ∨ opts.level = .full)
    (hcap : opts.maxFanIn = 0 ∨ 2 ≤ opts.maxFanIn) {net : Network}
    (h : (l.compile opts).listen.1 = .ok net) :
    net.verify .full opts.maxFanIn = .ok () ∧ net.Balanced ∧
      (∀ c k, net.get? c = some k → k.isGate = true → 0 ≤ k.count ∧ k.count ≤ k.inputs.length) ∧
      net.recount net.sinks true = .ok net ∧ net.Fitted ∧
      (0 < opts.maxFanIn → ∀ c, (net.inputsOf c).length ≤ opts.maxFanIn) ∧
      List.Forall₂ (fun b t => net.kind? t = some (.transition (some b))) net.bases net.transitions ∧
      ∀ p ∈ net.players, (∀ l ∈ p.legals, net.outputsOf l = []) ∧
        List.Forall₂ (fun l i => net.pairedInput? l = some i) p.legals p.inputs := by
  obtain ⟨cut, last, hc⟩ := compiled_of_ok hb ha h
  have hraw : opts.level ≠ .raw := by rcases hlevel with hl | hl <;> rw [hl] <;> decide
  have hfin := hc.finished
  have hground := hc.finishing.grounded (hc.simplified hraw).1
  have hfan : 0 < opts.maxFanIn → ∀ c, (net.inputsOf c).length ≤ opts.maxFanIn := fun hpos c => by
    have hle := hc.finishing.fanIn (by rwa [if_neg hraw]) c
    rw [if_neg hraw] at hle
    omega
  have hcheck := hfin.checkInvariants_eq_ok hground hc.finishing.aligned hfan
  refine ⟨?_, hfin.formed.balanced, fun c k hk hg => hfin.isCounted hground hk hg, hfin.recount_eq true,
    hfin.fitted, hfan, hfin.formed.driven, fun p hp => ⟨fun l hl => ?_, hc.finishing.aligned p hp⟩⟩
  · refine Checked.check_eq_ok_iff.mpr ⟨hcheck, ?_⟩
    rw [checkCounts, hfin.recount_eq true]
    rfl
  · exact hfin.ended l (List.mem_flatMap.mpr ⟨p, hp, hl⟩)

theorem verify_of_compile_lamp : ∃ net, (lamp.compile { level := .full, maxFanIn := 2 }).listen.1 = .ok net ∧
    net.verify .full 2 = .ok () := by
  have hok : (lamp.compile { level := .full, maxFanIn := 2 }).listen.1.isOk = true := by decide +kernel
  obtain ⟨net, hnet⟩ := Checked.exists_of_isOk hok
  exact ⟨net, hnet, (verify_of_compile lamp lamp_balanced lamp_acyclic _ (.inr rfl) (.inr (Nat.le_refl 2))
    hnet).1⟩

end Listing

end GameNet
