import GameNet.Proofs.Game.Answers
import GameNet.Proofs.Simplify.Constants

/-!
Taking away what is constant, and what is cut off.

Between the stages of the compiler, counts of gates may be wrong, so nothing that is folded looks at them:
a component is folded at the value that it has already.
-/

namespace GameNet.Network

open List

open Constants

/-! ## Folding what has its value already -/

structure Trimmed (net : Network) (c : CompId) (v : Bool) (net' : Network) : Prop where
  parts : net'.parts = net.parts
  capacity : net'.capacity = net.capacity
  balanced : net'.Balanced
  acyclic : net'.Acyclic
  old : ∀ d k', net'.get? d = some k' → ∃ k, net.get? d = some k ∧ k'.face = k.face ∧
    k'.inputs.Sublist k.inputs ∧ (k.inputs = [] → k'.bare = k.bare)
  kept : ∀ d, Lasting net d → net'.contains d = true
  gone : ¬ Lasting net c → net'.contains c = false
  quiet : net'.outputsOf c = []
  drained : ∀ d k', net'.get? d = some k' → k'.op = .proposition → k'.inputs = [] →
    net.inputsOf d ≠ [] → net'.outputsOf d = []
  spent : ∀ d k', net'.get? d = some k' → k'.isGate = true → k'.inputs = [] → net.inputsOf d = []
  obeys : ∀ u, net.Obeys u → u c = v → (∀ i, Fallen net net' i → u i = false) → net'.Obeys u
  stuck : ∀ d k', net'.get? d = some k' → k'.inputs = [] → net.inputsOf d ≠ [] →
    ∀ u u', net.Obeys u → u c = v → (∀ i, Fallen net net' i → u i = false) →
      net.Obeys u' → u' c = v → (∀ i, Fallen net net' i → u' i = false) → u d = u' d

theorem Trimmed.of_purged {net : Network} {c : CompId} {v : Bool} {s : Constants.State}
    (ha : net.Acyclic) (h : Purged False net (c, v) s) : Trimmed net c v s.net := by
  obtain ⟨known, bound, hp⟩ := h
  obtain ⟨start, val, -, hf⟩ := hp.stage.folding
  have hhush : c ∈ known.map (·.1) := mem_map.mpr ⟨(c, v), hp.mem, rfl⟩
  have hidle : ∀ d, d ∉ s.work.map (·.1) := by
    intro d hd
    rw [hp.stage.idle] at hd
    exact absurd hd not_mem_nil
  have hsilent : ∀ {d}, d ∈ known.map (·.1) ∨ Drained net s.net.front? d → s.net.outputsOf d = [] := by
    intro d hd
    rcases hf.quiet d hd with hm | h0
    · exact absurd hm (hidle d)
    · rw [eq_nil_iff_forall_not_mem]
      exact fun b => count_eq_zero.mp (h0 b)
  -- everything known is `c` itself or has fallen with it
  have hknown : ∀ u, net.Obeys u → u c = v → (∀ i, Fallen net s.net i → u i = false) →
      Known net known u := by
    refine fun u hu hc hfallen => ⟨hu, fun x hx => ?_⟩
    rcases hp.fallen x hx with rfl | ⟨h2, hfall⟩
    · exact hc
    · rw [h2, hfallen x.1 hfall]
  constructor
  case parts => exact hf.parts
  case capacity => exact hf.capacity
  case balanced => exact hf.balanced
  case acyclic => exact hf.acyclic ha
  case old =>
    intro d k' hk'
    obtain ⟨k, hk, hface, hbare⟩ := hp.stage.same id d k' hk'
    obtain ⟨k₀, hk₀, -, hsub⟩ := hf.core.old d k'.front (front?_of_get? hk')
    rw [hk] at hk₀
    cases hk₀
    exact ⟨k, hk, hface, hsub, hbare⟩
  case kept =>
    intro d hd
    have hk : ∃ k, net.get? d = some k ∧ (k.op = .proposition ∨ k.op = .transition) := by
      rcases hd with hop | hop
      · obtain ⟨k, hk, hop⟩ := Option.map_eq_some_iff.mp hop
        exact ⟨k, hk, .inl hop⟩
      · obtain ⟨k, hk, hop⟩ := Option.map_eq_some_iff.mp hop
        exact ⟨k, hk, .inr hop⟩
    obtain ⟨k, hk, hop⟩ := hk
    obtain ⟨kf, hkf⟩ := hf.core.kept d k hk hop
    obtain ⟨k', hk', -⟩ := exists_of_front? hkf
    exact contains_of_get? hk'
  case gone =>
    intro hlast
    rcases hf.gone c hhush with hm | hnone | hl
    · exact absurd hm (hidle c)
    · rw [front?, Option.map_eq_none_iff] at hnone
      exact get?_eq_none_iff.mp hnone
    · exact absurd hl hlast
  case quiet => exact hsilent (.inl hhush)
  case drained => exact fun d k' hk' hop hi hne => hsilent (.inr ⟨k'.front, front?_of_get? hk', hop, hi, hne⟩)
  case spent =>
    intro d k' hk' hg hnil
    exact (hf.core.spent d k'.front (front?_of_get? hk') hg hnil).resolve_left (hidle d)
  case obeys =>
    intro u hu hc hfallen d op hop hne
    obtain ⟨k, hk, rfl⟩ := Option.map_eq_some_iff.mp hop
    rw [inputsOf_of_get? hk] at hne ⊢
    exact hf.core.obeys u (hknown u hu hc hfallen) d k.front (front?_of_get? hk) hne
  case stuck =>
    intro d k' hk' hnil hne u u' hu hc hfall hu' hc' hfall'
    obtain ⟨w, hw⟩ := hf.core.lost d k'.front (front?_of_get? hk') hnil hne
    rw [hw u (hknown u hu hc hfall), hw u' (hknown u' hu' hc' hfall')]

theorem gives_refl (net : Network) (c : CompId) (v : Bool) : Gives False c v net net :=
  ⟨.refl net, False.elim, False.elim, False.elim, fun _ _ _ => rfl, fun _ => rfl⟩

theorem foldConstant_trimmed {net : Network} {c : CompId} {k : Component} {v : Bool}
    (hn : Trimmable False net) (hk : net.get? c = some k) (hnil : k.inputs = [])
    (hop : k.op ≠ .transition) (hval : k.isGate ∧ k.value = v ∨ k.isGate = false ∧ k.count = countOf v)
    (hfirst : k.hasRole .input → v = false) : (net.foldConstant c v).Yields fun r => Trimmed net c v r.1 := by
  rcases hval with ⟨hg, hv⟩ | ⟨hg, hcount⟩
  · unfold foldConstant
    refine .bind (.lift ⟨k, get_of_get? hk, rfl⟩) fun k' hk' => ?_
    cases hk'
    simp only [hnil, hg, hv, isEmpty_nil, Bool.not_true, Bool.false_eq_true, if_false, if_true]
    refine .bind (.pure (P := (· = net)) rfl) fun net' hnet' => ?_
    cases hnet'
    rw [← bind_assoc]
    refine .bind (fold_purged hn hk hnil hfirst (gives_refl net c v)) fun s hs => .pure ?_
    exact .of_purged hn.acyclic hs
  · refine (foldConstant_purged hn hk hnil hg hop (.inr hcount) hfirst).mono fun r hr => ?_
    obtain ⟨s, hs, hr⟩ := hr
    rw [← hr]
    exact .of_purged hn.acyclic hs

section Trimmed

variable {net net' : Network} {c d : CompId} {v : Bool} {P : Position → Prop}
  {ref : Position → CompId → Bool}

theorem Trimmed.outputsOf (h : Trimmed net c v net') (hb : net.Balanced)
    (ho : net.outputsOf d = []) : net'.outputsOf d = [] := by
  rw [eq_nil_iff_forall_not_mem] at ho ⊢
  intro b hmem
  have hin := h.balanced.mem_iff.mp hmem
  obtain ⟨k', hk'⟩ := contains_iff.mp (contains_of_mem_inputsOf hin)
  obtain ⟨k, hk, -, hsub, -⟩ := h.old b k' hk'
  rw [inputsOf_of_get? hk'] at hin
  refine ho b (hb.mem_iff.mpr ?_)
  rw [inputsOf_of_get? hk]
  exact hsub.subset hin

theorem Trimmed.keepsAll (h : Trimmed net c v net') (hb : net.Balanced) : Keeps net net' := by
  refine ⟨Nat.le_of_eq h.capacity.symm, fun d k' hk' => ?_⟩
  obtain ⟨k, hk, hface, hsub, hbare⟩ := h.old d k' hk'
  refine .inl ⟨k, hk, Component.kind_of_face hface, fun hi => ?_, fun hg => ?_, fun _ ho => ?_⟩
  · rw [hi] at hsub
    exact sublist_nil.mp hsub
  · exact Component.count_of_bare (Component.bare_of_face hface.symm hg).symm
  · rw [← outputsOf_of_get? hk']
    exact h.outputsOf hb (by rw [outputsOf_of_get? hk, ho])

theorem Formed.trimmed (hf : net.Formed) (h : Trimmed net c v net') : net'.Formed where
  toCast := hf.toCast.of_parts (h.keepsAll hf.balanced) h.parts fun d hd => h.kept d (hf.partsPlayed d hd)
  balanced := h.balanced
  acyclic := h.acyclic
  shaped := by
    intro d k' hk'
    obtain ⟨k, hk, hface, -⟩ := h.old d k' hk'
    exact (hf.shaped d k hk).of_face hface

section

variable (h : Trimmed net c v net')
include h

theorem Trimmed.isHead (hf : net.Formed) (hn : net.Narrow) (hd : net'.IsHead d) : net.IsHead d := by
  obtain ⟨k', hk'⟩ := contains_iff.mp hd.contains
  obtain ⟨hi, ho⟩ := hd
  refine ⟨?_, fun hnone => ho (h.outputsOf hf.balanced hnone)⟩
  by_contra hne
  obtain ⟨k, hk, hface, -⟩ := h.old d k' hk'
  have hop : k'.op = k.op := congrArg Kind.op (Component.kind_of_face hface)
  have hnil : k'.inputs = [] := (inputsOf_of_get? hk').symm.trans hi
  have hgate : k'.isGate ≠ true := fun hg => hne (h.spent d k' hk' hg hnil)
  cases hsort : k'.op with
  | and | or | not => exact hgate (by rw [Component.isGate, hsort]; rfl)
  | proposition => exact ho (h.drained d k' hk' hsort hnil hne)
  | transition =>
    exact ho ((h.keepsAll hf.balanced).outputsOf_of_transition hf.transition
      ((op?_of_get? hk').trans (congrArg some hsort)))
  | constant => exact hne ((inputsOf_of_get? hk).trans ((hn d k hk).2 (hop.symm.trans hsort)))

theorem Trimmed.narrow (hn : net.Narrow) : net'.Narrow := by
  intro d k' hk'
  obtain ⟨k, hk, hface, hsub, -⟩ := h.old d k' hk'
  have hop : k'.op = k.op := congrArg Kind.op (Component.kind_of_face hface)
  obtain ⟨hone, hconst⟩ := hn d k hk
  refine ⟨fun hand hor => ?_, fun hc => ?_⟩
  · exact Nat.le_trans hsub.length_le (hone (hop ▸ hand) (hop ▸ hor))
  · rw [hconst (hop ▸ hc)] at hsub
    exact sublist_nil.mp hsub

theorem Trimmed.telling (hb : net.Balanced) (hd : net'.Telling d) : net.Telling d := by
  obtain ⟨k', hk'⟩ := contains_iff.mp hd.contains
  obtain ⟨k, hk, hface, hsub, -⟩ := h.old d k' hk'
  have hkind := Component.kind_of_face hface
  by_cases hg : k'.isGate
  · obtain ⟨hi, ho⟩ := hd.nil_of_isGate hk' hg
    exact .inr ⟨contains_of_get? hk, h.spent d k' hk' hg hi, fun hnil => ho (h.outputsOf hb hnil)⟩
  · rw [Bool.not_eq_true] at hg
    exact telling_of_get? hk ((isGate_of_kind hkind).symm.trans hg)

theorem Trimmed.valueAt_telling (hd : net'.Telling d) : net'.valueAt d = net.valueAt d := by
  obtain ⟨k', hk'⟩ := contains_iff.mp hd.contains
  obtain ⟨k, hk, hface, -, hbare⟩ := h.old d k' hk'
  rw [valueAt_of_get? hk, valueAt_of_get? hk']
  refine Component.value_of_bare ?_
  by_cases hg : k'.isGate
  · have hnil := h.spent d k' hk' hg (hd.nil_of_isGate hk' hg).1
    rw [inputsOf_of_get? hk] at hnil
    exact hbare hnil
  · exact Component.bare_of_face hface (Bool.not_eq_true _ ▸ hg)

theorem Trimmed.rested (hb : net.Balanced) (hr : net.Rested) : net'.Rested := by
  intro d k' hk' hop hi ho
  have hg : k'.isGate := by
    rw [Component.isGate]
    rcases hop with hop | hop
    · rw [hop]; rfl
    · rw [hop]; rfl
  obtain ⟨k, hk, hface, -, hbare⟩ := h.old d k' hk'
  have hopeq : k'.op = k.op := congrArg Kind.op (Component.kind_of_face hface)
  have hnil := h.spent d k' hk' hg hi
  rw [inputsOf_of_get? hk] at hnil
  have hout : k.outputs ≠ [] := by
    intro hnone
    have h' := h.outputsOf hb (d := d) (by rw [outputsOf_of_get? hk, hnone])
    rw [outputsOf_of_get? hk'] at h'
    exact ho h'
  obtain ⟨hcount, hreq⟩ := hr d k hk (hopeq ▸ hop) hnil hout
  refine ⟨(Component.count_of_bare (hbare hnil)).trans hcount, fun hand => ?_⟩
  have hreq' := congrArg Component.reqTrue (hbare hnil)
  exact hreq'.trans (hreq (hopeq ▸ hand))

end

end Trimmed

/-! ## Folding keeps the answers -/

section TrimmedAnswers

variable {net net' : Network} {c : CompId} {k : Component} {v : Bool} {P : Position → Prop}
  {ref : Position → CompId → Bool}

theorem value_of_shaped (h : k.Shaped) (hg : k.isGate = false) : k.value = decide (1 ≤ k.count) := by
  have hnot : k.op ≠ .not := by
    intro hop
    rw [Component.isGate, hop] at hg
    cases hg
  obtain ⟨hsign, hreq⟩ := h
  rw [if_neg hnot] at hsign
  rw [Component.value, hsign, (hreq (Component.op_ne_and_of_isGate hg)).1]
  exact Bool.xor_false _

theorem valueAt_of_countAt (hf : net.Formed) {role : PropRole} (hc : net.isRole c role)
    (hzero : net.countAt c = 0) : net.valueAt c = false := by
  obtain ⟨k, hk⟩ := contains_iff.mp (contains_of_isRole hc)
  rw [countAt_of_get? hk] at hzero
  have hg : k.isGate = false := Component.isGate_of_hasRole ((isRole_of_get? hk).symm.trans hc)
  rw [valueAt_of_get? hk, value_of_shaped (hf.shaped c k hk) hg, hzero]
  rfl

theorem Obeys.fix {u : CompId → Bool} (h : net.Obeys u) (hb : net.Balanced) (hc : net.contains c)
    (hi : net.inputsOf c = []) (hv : net.Telling c → u c = v) :
    ∃ u', net.Obeys u' ∧ u' c = v ∧ ∀ d, net.Telling d → u' d = u d := by
  by_cases ht : net.Telling c
  · exact ⟨u, h, hv ht, fun _ _ => rfl⟩
  have hnil : net.outputsOf c = [] := by
    by_contra ho
    exact ht (.inr ⟨hc, hi, ho⟩)
  have hne : ∀ d, d ≠ c → (if d = c then v else u d) = u d := fun d hd => if_neg hd
  refine ⟨fun d => if d = c then v else u d, fun d op hop hd => ?_, if_pos rfl, fun d hd => ?_⟩
  · beta_reduce
    rw [hne d (fun heq => hd (heq ▸ hi)), h d op hop hd]
    refine op.read_of_forall_eq fun a ha => ?_
    refine (hne a ?_).symm
    rintro rfl
    have hmem := hb.mem_iff.mpr ha
    rw [hnil] at hmem
    cases hmem
  · exact hne d fun heq => ht (heq ▸ hd)

structure Freed (net : Network) (c : CompId) (v : Bool) (net' : Network) (u : CompId → Bool) : Prop where
  obeys : net.Obeys u
  stuck : u c = v
  fallen : ∀ i, Fallen net net' i → u i = false

theorem Trimmed.exists_legal (h : Trimmed net c v net') (hf : net.Formed) {i : CompId}
    (hi : Fallen net net' i) : net.isRole i .input ∧ ∃ l, net.pairedInput? l = some i ∧
      (∃ k', net'.get? l = some k' ∧ k'.isGate = false ∧ k'.inputs = []) ∧ net.inputsOf l ≠ [] ∧
      net'.valueAt l = false := by
  obtain ⟨l, k', hk', hrole, hpair, hne, hnil, hval⟩ := hi
  have hpair' : net'.pairedInput? l = some i := by rwa [pairedInput?_of_get? hk']
  have hl := (h.keepsAll hf.balanced).pairedInput? hpair'
  refine ⟨hf.inputs i (hf.paired l i hl).2.1, l, hl, ⟨k', hk', Component.isGate_of_hasRole hrole, hnil⟩,
    hne, ?_⟩
  rw [valueAt_of_get? hk', hval]

theorem not_base_of_input (hf : net.Formed) {i : CompId} (hi : net.isRole i .input) : i ∉ net.bases := by
  intro hb
  cases isRole_unique hi (hf.base i hb).1

theorem telling_of_isRole {role : PropRole} {i : CompId} (hi : net.isRole i role) :
    net.Telling i := .inl ⟨.proposition, op?_of_isRole hi, rfl⟩

theorem Trimmed.freed (h : Trimmed net c v net') (hf : net.Formed) (ha : net.Answers P ref)
    (hzero : ∀ i, net.isRole i .input → net.countAt i = 0) (hc : net.contains c)
    (hi : net.inputsOf c = []) (hv : net.Telling c → net.valueAt c = v)
    (hsrc : ∀ p, P p → net.Telling c → net.source p c = v) :
    (∃ u₀, Freed net c v net' u₀ ∧ ∀ d, net.Telling d → u₀ d = net.valueAt d) ∧
      ∀ p, P p → ∃ u, Freed net c v net' u ∧
        (∀ d, net.Telling d → net.inputsOf d = [] → u d = net.source p d) ∧
        ∀ d op, net.op? d = some op → op.isGate = false → u d = ref p d := by
  have hstored : ∃ u₀, Freed net c v net' u₀ ∧ ∀ d, net.Telling d → u₀ d = net.valueAt d := by
    obtain ⟨u, hu, hval⟩ := ha.coherent
    obtain ⟨u₀, hu₀, hc₀, hsame⟩ := hu.fix hf.balanced hc hi fun ht => (hval c ht).trans (hv ht)
    have hval₀ : ∀ d, net.Telling d → u₀ d = net.valueAt d := fun d hd => (hsame d hd).trans (hval d hd)
    refine ⟨u₀, ⟨hu₀, hc₀, fun i hfall => ?_⟩, hval₀⟩
    obtain ⟨hrole, -⟩ := h.exists_legal hf hfall
    rw [hval₀ i (telling_of_isRole hrole), valueAt_of_countAt hf hrole (hzero i hrole)]
  -- the values of a position, as long as no input that has fallen is chosen
  have hposition : ∀ p, P p → (∀ i, Fallen net net' i → p.does i = false) →
      ∃ u, Freed net c v net' u ∧
        (∀ d, net.Telling d → net.inputsOf d = [] → u d = net.source p d) ∧
        ∀ d op, net.op? d = some op → op.isGate = false → u d = ref p d := by
    intro p hp hdoes
    obtain ⟨w, hw, href⟩ := ha.fits p hp
    obtain ⟨u, hu, huc, hsame⟩ := hw.obeys.fix hf.balanced hc hi fun ht =>
      (hw.sources c ht hi).trans (hsrc p hp ht)
    have hsource : ∀ d, net.Telling d → net.inputsOf d = [] → u d = net.source p d :=
      fun d hd hnil => (hsame d hd).trans (hw.sources d hd hnil)
    refine ⟨u, ⟨hu, huc, fun i hfall => ?_⟩, hsource, fun d op hop hg => ?_⟩
    · obtain ⟨hrole, -⟩ := h.exists_legal hf hfall
      rw [hsource i (telling_of_isRole hrole) (hf.input i hrole),
        source_of_input p (not_base_of_input hf hrole) hrole, hdoes i hfall]
    · rw [hsame d (.inl ⟨op, hop, hg⟩), href d op hop hg]
  refine ⟨hstored, fun p hp => hposition p hp fun i hfall => ?_⟩
  obtain ⟨u₀, hu₀, hval₀⟩ := hstored
  obtain ⟨q, hq, -, href⟩ := hposition p.quiet (ha.lawful.quiet p hp) fun _ _ => rfl
  obtain ⟨hrole, l, hl, ⟨k', hk', hg, hnil⟩, hne, hfalse⟩ := h.exists_legal hf hfall
  have htell' : net'.Telling l := telling_of_get? hk' hg
  have hplain : ∃ op, net.op? l = some op ∧ op.isGate = false := by
    obtain ⟨k, hk, hface, -⟩ := h.old l k' hk'
    exact ⟨k.op, op?_of_get? hk, (isGate_of_kind (Component.kind_of_face hface)).symm.trans hg⟩
  obtain ⟨op, hop, hgate⟩ := hplain
  -- the legal is stuck, so it is false in the quiet position, too
  have hquiet : ref p.quiet l = false := by
    rw [← href l op hop hgate, h.stuck l k' hk' hnil hne q u₀ hq.obeys hq.stuck hq.fallen hu₀.obeys
      hu₀.stuck hu₀.fallen, hval₀ l (.inl ⟨op, hop, hgate⟩), ← h.valueAt_telling htell', hfalse]
  rw [Bool.eq_false_iff]
  intro hdoes
  obtain ⟨l', hl', htrue⟩ := ha.lawful.legal p hp i hrole hdoes
  have hback := (hf.paired l i hl).2.2
  rw [(hf.paired l' i hl').2.2] at hback
  cases hback
  rw [hquiet] at htrue
  cases htrue

/-- Folding a component at the value that it has in all positions gives the same answers. -/
theorem Answers.trimmed (ha : net.Answers P ref) (hf : net.Formed) (h : Trimmed net c v net')
    (hzero : ∀ i, net.isRole i .input → net.countAt i = 0) (hc : net.contains c)
    (hi : net.inputsOf c = []) (hv : net.Telling c → net.valueAt c = v)
    (hsrc : ∀ p, P p → net.Telling c → net.source p c = v) : net'.Answers P ref := by
  obtain ⟨⟨u₀, hu₀, hval₀⟩, hfits⟩ := h.freed hf ha hzero hc hi hv hsrc
  have hkeeps := h.keepsAll hf.balanced
  have hkind : ∀ d, net'.contains d → net'.kind? d = net.kind? d := fun d hd => by
    obtain ⟨k', hk'⟩ := contains_iff.mp hd
    obtain ⟨k, hk, -⟩ := h.old d k' hk'
    exact hkeeps.kind? (contains_of_get? hk) hd
  have hop' : ∀ d op, net'.op? d = some op → net.op? d = some op := fun d op hop => by
    obtain ⟨k', hk', rfl⟩ := Option.map_eq_some_iff.mp hop
    obtain ⟨k, hk, hface, -⟩ := h.old d k' hk'
    rw [op?_of_get? hk]
    exact congrArg (fun kind => some (Kind.op kind)) (Component.kind_of_face hface).symm
  refine ⟨⟨u₀, h.obeys u₀ hu₀.obeys hu₀.stuck hu₀.fallen, fun d hd => ?_⟩, h.rested hf.balanced ha.rested,
    ha.lawful.keeps hf.toCast hkeeps fun l hl => h.kept l (.inl (hf.op?_of_legal hl)), fun p hp => ?_⟩
  · rw [hval₀ d (h.telling hf.balanced hd), h.valueAt_telling hd]
  obtain ⟨u, hu, hsource, href⟩ := hfits p hp
  refine ⟨u, ⟨h.obeys u hu.obeys hu.stuck hu.fallen, fun d hd hnil => ?_⟩, fun d op hop hg => ?_⟩
  · have htell := h.telling hf.balanced hd
    by_cases hne : net.inputsOf d = []
    · rw [hsource d htell hne]
      refine (source_congr p ?_ (isRole_of_kind? (hkind d hd.contains) _) (h.valueAt_telling hd)).symm
      rw [field_of_parts Network.bases h.parts]
    -- what has lost its inputs is stuck at what is stored there
    obtain ⟨k', hk'⟩ := contains_iff.mp hd.contains
    rw [inputsOf_of_get? hk'] at hnil
    rw [h.stuck d k' hk' hnil hne u u₀ hu.obeys hu.stuck hu.fallen hu₀.obeys hu₀.stuck hu₀.fallen,
      hval₀ d htell, ← h.valueAt_telling hd, source_of_other]
    · rw [field_of_parts Network.bases h.parts]
      exact fun hb => hne (hf.base d hb).2
    · rw [isRole_of_kind? (hkind d hd.contains)]
      exact fun hr => hne (hf.input d hr)
  · exact href d op (hop' d op hop) hg

end TrimmedAnswers

/-! ## What is cut off goes -/

structure Drops (gone : CompId → Prop) (net net' : Network) : Prop where
  capacity : net'.capacity = net.capacity
  missing : ∀ c, gone c → net'.get? c = none
  same : ∀ c, ¬ gone c → net'.get? c = net.get? c
  idle : ∀ c, gone c → net.inputsOf c = [] ∧ net.outputsOf c = []

section Drops

variable {gone : CompId → Prop} {net net' : Network} {c : CompId} {k : Component}
  {P : Position → Prop} {ref : Position → CompId → Bool}

section

variable (h : Drops gone net net')
include h

theorem Drops.get?_of_some (hk : net'.get? c = some k) : net.get? c = some k := by
  by_cases hc : gone c
  · rw [h.missing c hc] at hk
    cases hk
  · rwa [← h.same c hc]

theorem Drops.contains (hc : ¬ gone c) : net'.contains c = net.contains c := by
  rw [Network.contains, Network.contains, h.same c hc]

theorem Drops.inputsOf (c : CompId) : net'.inputsOf c = net.inputsOf c := by
  by_cases hc : gone c
  · rw [(h.idle c hc).1, Network.inputsOf, h.missing c hc]
    rfl
  · rw [Network.inputsOf, Network.inputsOf, h.same c hc]

theorem Drops.outputsOf (c : CompId) : net'.outputsOf c = net.outputsOf c := by
  by_cases hc : gone c
  · rw [(h.idle c hc).2, Network.outputsOf, h.missing c hc]
    rfl
  · rw [Network.outputsOf, Network.outputsOf, h.same c hc]

theorem Drops.isHead (hc : net'.IsHead c) : net.IsHead c := by
  rwa [IsHead, h.inputsOf, h.outputsOf] at hc

theorem Drops.keepsAll : Keeps net net' :=
  ⟨Nat.le_of_eq h.capacity.symm, fun _ k hk =>
    .inl ⟨k, h.get?_of_some hk, .refl k⟩⟩

theorem Drops.balanced (hb : net.Balanced) : net'.Balanced := by
  intro a b
  rw [edgesOut, edgesIn, h.outputsOf, h.inputsOf]
  exact hb a b

theorem Drops.acyclic (ha : net.Acyclic) : net'.Acyclic := by
  have hfeeds : net'.Feeds = net.Feeds := by
    funext a b
    rw [Feeds, Feeds, h.inputsOf]
  rw [Acyclic, hfeeds]
  exact ha

theorem Drops.telling (hc : net'.Telling c) : net.Telling c := by
  rcases hc with ⟨op, hop, hg⟩ | ⟨hc, hi, ho⟩
  · obtain ⟨k, hk, rfl⟩ := Option.map_eq_some_iff.mp hop
    exact telling_of_get? (h.get?_of_some hk) hg
  obtain ⟨k, hk⟩ := contains_iff.mp hc
  refine .inr ⟨contains_of_get? (h.get?_of_some hk), ?_, ?_⟩
  · rwa [← h.inputsOf]
  · rwa [← h.outputsOf]

end

/-- A network without some components that are cut off gives the same answers, if the bases that are
left are the ones that were bases before. -/
theorem Answers.drops (ha : net.Answers P ref) (hf : net.Formed) (h : Drops gone net net')
    (hlive : ∀ l ∈ net.legals, ¬ gone l)
    (hbases : ∀ c, net'.contains c → (c ∈ net'.bases ↔ c ∈ net.bases)) : net'.Answers P ref := by
  have hget : ∀ c, net'.contains c → net'.get? c = net.get? c := fun c hc => by
    obtain ⟨k, hk⟩ := contains_iff.mp hc
    rw [hk, h.get?_of_some hk]
  have hvalue : ∀ c, net'.contains c → net'.valueAt c = net.valueAt c := fun c hc => by
    rw [valueAt, valueAt, hget c hc]
  have hop' : ∀ c op, net'.op? c = some op → net.op? c = some op := fun c op hop => by
    rw [op?, ← hget c (contains_of_op? hop)]
    exact hop
  have hobeys : ∀ v, net.Obeys v → net'.Obeys v := fun v hv c op hop hi => by
    rw [h.inputsOf] at hi ⊢
    exact hv c op (hop' c op hop) hi
  obtain ⟨v, hv, hval⟩ := ha.coherent
  refine ⟨⟨v, hobeys v hv, fun c hc => ?_⟩, fun c k hk => ?_, ?_, fun p hp => ?_⟩
  · rw [hval c (h.telling hc), hvalue c hc.contains]
  · exact ha.rested c k (h.get?_of_some hk)
  · refine ha.lawful.keeps hf.toCast h.keepsAll fun l hl => ?_
    rw [h.contains (hlive l hl)]
    exact contains_of_op? (hf.op?_of_legal hl)
  obtain ⟨u, hu, href⟩ := ha.fits p hp
  refine ⟨u, ⟨hobeys u hu.obeys, fun c hc hi => ?_⟩, fun c op hop hg => href c op (hop' c op hop) hg⟩
  rw [h.inputsOf] at hi
  rw [hu.sources c (h.telling hc) hi]
  refine (source_congr p (hbases c hc.contains) ?_ (hvalue c hc.contains)).symm
  rw [Network.isRole, Network.isRole, hget c hc.contains]

end Drops

end GameNet.Network
