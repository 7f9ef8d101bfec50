import GameNet.Proofs.Game.Cast

/-!
What a network answers in every position, compared with a reference.

`Fits` says that values go with a position: components without inputs read the position or what is stored
there, and all others read their inputs.
-/

namespace GameNet

structure Position where
  on : CompId → Bool
  does : CompId → Bool

def Position.quiet (p : Position) : Position := ⟨p.on, fun _ => false⟩

namespace Network

def source (net : Network) (p : Position) (c : CompId) : Bool :=
  if c ∈ net.bases then p.on c
  else if net.isRole c .input = true then p.does c
  else net.valueAt c

/-- The stored value at `c` is right throughout: `c` is no gate, or nothing counts towards it but it
counts towards something. -/
def Telling (net : Network) (c : CompId) : Prop :=
  (∃ op, net.op? c = some op ∧ op.isGate = false) ∨
    net.contains c = true ∧ net.inputsOf c = [] ∧ net.outputsOf c ≠ []

structure Fits (net : Network) (p : Position) (v : CompId → Bool) : Prop where
  obeys : net.Obeys v
  sources : ∀ c, net.Telling c → net.inputsOf c = [] → v c = net.source p c

def Coherent (net : Network) : Prop :=
  ∃ v, net.Obeys v ∧ ∀ c, net.Telling c → v c = net.valueAt c

def Rested (net : Network) : Prop :=
  ∀ c k, net.get? c = some k → k.op = .and ∨ k.op = .or → k.inputs = [] → k.outputs ≠ [] →
    k.count = 0 ∧ (k.op = .and → k.reqTrue = 0)

structure Lawful (net : Network) (P : Position → Prop) (ref : Position → CompId → Bool) : Prop where
  quiet : ∀ p, P p → P p.quiet
  legal : ∀ p, P p → ∀ i, net.isRole i .input = true → p.does i = true →
    ∃ l, net.pairedInput? l = some i ∧ ref p.quiet l = true

/-- In all positions in `P`, whatever is no gate has the value that the reference gives. -/
structure Answers (net : Network) (P : Position → Prop) (ref : Position → CompId → Bool) : Prop where
  coherent : net.Coherent
  rested : net.Rested
  lawful : net.Lawful P ref
  fits : ∀ p, P p → ∃ v, net.Fits p v ∧
    ∀ c op, net.op? c = some op → op.isGate = false → v c = ref p c

section Telling

variable {net : Network} {c : CompId}

theorem Telling.nil_of_isGate {k : Component} (h : net.Telling c) (hk : net.get? c = some k)
    (hg : k.isGate) : k.inputs = [] ∧ net.outputsOf c ≠ [] := by
  rcases h with ⟨op, hop, hplain⟩ | ⟨-, hi, ho⟩
  · rw [op?_of_get? hk] at hop
    cases hop
    rw [Component.isGate, hplain] at hg
    cases hg
  · rw [inputsOf_of_get? hk] at hi
    exact ⟨hi, ho⟩

theorem Telling.contains (h : net.Telling c) : net.contains c := by
  rcases h with ⟨op, hop, -⟩ | ⟨hc, -⟩
  · exact contains_of_op? hop
  · exact hc

theorem Telling.observable (h : net.Telling c) : net.Observable c := by
  rcases h with hop | ⟨hc, hi, -⟩
  · exact .inl hop
  · exact .inr ⟨hc, hi⟩

theorem telling_of_get? {k : Component} (hk : net.get? c = some k) (hg : k.isGate = false) :
    net.Telling c := .inl ⟨k.op, op?_of_get? hk, hg⟩

theorem source_of_base (p : Position) (h : c ∈ net.bases) : net.source p c = p.on c := if_pos h

theorem source_of_input (p : Position) (hb : c ∉ net.bases) (h : net.isRole c .input) :
    net.source p c = p.does c := by rw [source, if_neg hb, if_pos h]

theorem source_of_other (p : Position) (hb : c ∉ net.bases) (h : ¬ net.isRole c .input) :
    net.source p c = net.valueAt c := by rw [source, if_neg hb, if_neg h]

theorem source_congr {net' : Network} (p : Position) (hb : c ∈ net'.bases ↔ c ∈ net.bases)
    (hr : net'.isRole c .input = net.isRole c .input) (hv : net'.valueAt c = net.valueAt c) :
    net'.source p c = net.source p c := by
  rw [source, source, hr, hv]
  simp only [hb]

theorem Lawful.keeps {net' : Network} {P : Position → Prop} {ref : Position → CompId → Bool}
    (h : net.Lawful P ref) (hcast : net.Cast) (hk : Keeps net net')
    (hlive : ∀ l ∈ net.legals, net'.contains l) : net'.Lawful P ref := by
  refine ⟨h.quiet, fun p hp i hi hdoes => ?_⟩
  obtain ⟨l, hl, href⟩ := h.legal p hp i (hk.isRole_of hi) hdoes
  refine ⟨l, ?_, href⟩
  have hmem := (hcast.paired l i hl).1
  rw [pairedInput?_eq] at hl ⊢
  obtain ⟨q, hq, hqi⟩ := Option.bind_eq_some_iff.mp hl
  rw [hk.proposition? (contains_of_proposition? hq) (hlive l hmem), hq]
  exact hqi

end Telling

/-! ## Sound steps keep the answers -/

section Sound

variable {keep : CompId → Prop} {net net' : Network} {c : CompId} {P : Position → Prop}
  {ref : Position → CompId → Bool}

theorem Sound.telling (h : Sound keep net net') (hc : net'.Telling c) : net.Telling c := by
  rcases hc with ⟨op, hop, hg⟩ | ⟨hc', hi, ho⟩
  · exact .inl ⟨op, h.op?_of_plain hop hg, hg⟩
  obtain ⟨hc, hi'⟩ := h.source hc' hi
  refine .inr ⟨hc, hi', fun hnil => ho ?_⟩
  exact h.unread c ⟨.inr ⟨hc, hi'⟩, hnil⟩

theorem value_of_rest {k : Component} (hs : k.Shaped) (hop : k.op = .and) (hc : k.count = 0)
    (hr : k.reqTrue = 0) : k.value := by
  have hsign : k.sign = 1 := by rw [hs.1, if_neg (by rw [hop]; decide)]
  rw [Component.value, hc, hr, hsign]
  rfl

theorem Sound.valueAt_telling (h : Sound keep net net') (hf : net.Formed) (hr : net.Rested)
    (hc : net'.Telling c) : net'.valueAt c = net.valueAt c := by
  obtain ⟨k', hk'⟩ := contains_iff.mp hc.contains
  have htell := h.telling hc
  obtain ⟨k, hk⟩ := contains_iff.mp htell.contains
  have hbare : net'.bare? c = net.bare? c → net'.valueAt c = net.valueAt c := by
    intro hb
    rw [bare?, bare?, hk, hk'] at hb
    rw [valueAt_of_get? hk, valueAt_of_get? hk']
    exact Component.value_of_bare (Option.some.inj hb)
  rcases hc with ⟨op, hop, hg⟩ | ⟨hc', hi, ho⟩
  · exact hbare (h.bare? (h.op?_of_plain hop hg) hg (contains_of_get? hk'))
  obtain ⟨hc, hi'⟩ := h.source hc' hi
  rcases (h.leaf c hc hc' hi').2 with hb | ⟨hand, hrest⟩
  · exact hbare hb
  -- an AND that may have been counted anew, but is still at rest
  have hop : k.op = .and := by
    rw [op?_of_get? hk] at hand
    exact Option.some.inj hand
  have hout : k.outputs ≠ [] := by
    intro hnil
    refine ho (h.unread c ⟨.inr ⟨hc, hi'⟩, ?_⟩)
    rw [outputsOf_of_get? hk, hnil]
  rw [inputsOf_of_get? hk] at hi'
  obtain ⟨hcount, hreq⟩ := hr c k hk (.inl hop) hi' hout
  obtain ⟨k'', hk'', hcount', hreq'⟩ := hrest ⟨k, hk, hcount, hreq hop⟩
  rw [hk'] at hk''
  cases hk''
  have hop' : k'.op = .and := by
    have heq := h.op? hc hc'
    rw [op?_of_get? hk, op?_of_get? hk', hop] at heq
    exact Option.some.inj heq
  rw [valueAt_of_get? hk, valueAt_of_get? hk', value_of_rest (hf.shaped c k hk) hop hcount (hreq hop),
    value_of_rest (h.shaped hf.shaped c k' hk') hop' hcount' hreq']

theorem Sound.rested (h : Sound keep net net') (hr : net.Rested) : net'.Rested := by
  intro c k' hk' hop' hi' ho'
  have hc' := contains_of_get? hk'
  obtain ⟨hc, hi⟩ := h.source hc' (by rw [inputsOf_of_get? hk', hi'])
  obtain ⟨k, hk⟩ := contains_iff.mp hc
  have hopeq : k'.op = k.op := by
    have heq := h.op? hc hc'
    rw [op?_of_get? hk, op?_of_get? hk'] at heq
    exact Option.some.inj heq
  have hout : k.outputs ≠ [] := by
    intro hnil
    have hun := h.unread c ⟨.inr ⟨hc, hi⟩, by rw [outputsOf_of_get? hk, hnil]⟩
    rw [outputsOf_of_get? hk'] at hun
    exact ho' hun
  have hi₀ := hi
  rw [inputsOf_of_get? hk] at hi
  obtain ⟨hcount, hreq⟩ := hr c k hk (hopeq ▸ hop') hi hout
  rcases (h.leaf c hc hc' hi₀).2 with hb | ⟨hand, hrest⟩
  · rw [bare?, bare?, hk, hk'] at hb
    have hb := Option.some.inj hb
    refine ⟨(Component.count_of_bare hb).trans hcount, fun hop => ?_⟩
    have hreq' : k'.reqTrue = k.reqTrue := by
      have h' := congrArg Component.reqTrue hb
      exact h'
    rw [hreq']
    exact hreq (hopeq ▸ hop)
  · rw [op?_of_get? hk] at hand
    obtain ⟨k'', hk'', hcount', hreq'⟩ := hrest ⟨k, hk, hcount, hreq (Option.some.inj hand)⟩
    rw [hk'] at hk''
    cases hk''
    exact ⟨hcount', fun _ => hreq'⟩

theorem Sound.coherent (h : Sound keep net net') (hf : net.Formed) (hr : net.Rested)
    (hcoh : net.Coherent) : net'.Coherent := by
  obtain ⟨v, hv, hstored⟩ := hcoh
  obtain ⟨w, hw, hwv⟩ := h.values v hv
  refine ⟨w, hw, fun c hc => ?_⟩
  rw [hwv c (h.telling hc).observable hc.contains, hstored c (h.telling hc), h.valueAt_telling hf hr hc]

theorem Sound.source_telling (h : Sound keep net net') (hf : net.Formed) (hr : net.Rested)
    (p : Position) (hc : net'.Telling c) : net'.source p c = net.source p c :=
  source_congr p (by rw [field_of_parts Network.bases h.parts])
    (isRole_of_kind? (h.keepsAll.kind? (h.telling hc).contains hc.contains) .input)
    (h.valueAt_telling hf hr hc)

theorem Answers.sound (h : net.Answers P ref) (hf : net.Formed) (hs : Sound keep net net')
    (hkeep : ∀ c ∈ net.protectedIds true, keep c) : net'.Answers P ref where
  coherent := hs.coherent hf h.rested h.coherent
  rested := hs.rested h.rested
  lawful := by
    refine h.lawful.keeps hf.toCast hs.keepsAll fun l hl => ?_
    have hmem : l ∈ net.protectedIds true := mem_protectedIds.mpr (.inr (.inr (.inr (.inl hl))))
    exact hs.keeps l (hkeep l hmem) (hf.partsPlayed.contains hmem)
  fits p hp := by
    obtain ⟨v, hv, href⟩ := h.fits p hp
    obtain ⟨w, hw, hwv⟩ := hs.values v hv.obeys
    refine ⟨w, ⟨hw, fun c hc hi => ?_⟩, fun c op hop hg => ?_⟩
    · have htell := hs.telling hc
      rw [hwv c htell.observable hc.contains, hv.sources c htell (hs.source hc.contains hi).2,
        hs.source_telling hf h.rested p hc]
    · have hop' := hs.op?_of_plain hop hg
      rw [hwv c (.inl ⟨op, hop', hg⟩) (contains_of_op? hop), href c op hop' hg]

end Sound

/-! ## Counting anew -/

section Recount

variable {net net' : Network} {c : CompId} {P : Position → Prop} {ref : Position → CompId → Bool}

theorem Recounts.telling (h : Recounts net net') : net'.Telling c ↔ net.Telling c := by
  rw [Telling, Telling, h.op?, h.contains, h.inputsOf, h.outputsOf]

theorem Recounts.kind? (h : Recounts net net') (c : CompId) : net'.kind? c = net.kind? c := by
  rw [Network.kind?, Network.kind?]
  have hslot := congrArg (Option.map Component.kind) (h.slot c)
  rw [Option.map_map, Option.map_map] at hslot
  exact hslot

theorem Answers.recounts (h : net.Answers P ref) (hr : Recounts net net')
    (hcoh : net'.Coherent) (hrest : net'.Rested)
    (hsrc : ∀ c, net.Telling c → net.inputsOf c = [] → net'.valueAt c = net.valueAt c) :
    net'.Answers P ref := by
  have hkind : ∀ c role, net'.isRole c role = net.isRole c role := fun c role =>
    isRole_of_kind? (hr.kind? c) role
  refine ⟨hcoh, hrest, ⟨h.lawful.quiet, fun p hp i hi hdoes => ?_⟩, fun p hp => ?_⟩
  · obtain ⟨l, hl, href⟩ := h.lawful.legal p hp i (hkind i .input ▸ hi) hdoes
    refine ⟨l, ?_, href⟩
    rw [pairedInput?_of_kind? (hr.kind? l)]
    exact hl
  obtain ⟨v, hv, href⟩ := h.fits p hp
  refine ⟨v, ⟨fun c op hop hi => ?_, fun c hc hi => ?_⟩, fun c op hop hg => ?_⟩
  · rw [hr.inputsOf] at hi ⊢
    exact hv.obeys c op (hr.op? c ▸ hop) hi
  · rw [hr.inputsOf] at hi
    have htell := hr.telling.mp hc
    rw [hv.sources c htell hi]
    refine (source_congr p ?_ (hkind c .input) (hsrc c htell hi)).symm
    rw [field_of_parts Network.bases hr.parts]
  · exact href c op (hr.op? c ▸ hop) hg

end Recount

/-! ## From answers to evaluation -/

section Evaluation

variable {net : Network} {c : CompId} {P : Position → Prop} {ref : Position → CompId → Bool}

theorem Obeys.patch {v w : CompId → Bool} (h : net.Obeys v) (hb : net.Balanced) :
    net.Obeys fun c => if net.inputsOf c = [] ∧ net.outputsOf c = [] then w c else v c := by
  intro c op hop hi
  beta_reduce
  rw [if_neg fun hnil => hi hnil.1, h c op hop hi]
  refine op.read_of_forall_eq fun a ha => ?_
  rw [if_neg]
  rintro ⟨-, hnil⟩
  have hmem := hb.mem_iff.mpr ha
  rw [hnil] at hmem
  cases hmem

structure Shows (net : Network) (p : Position) (bits : List Bool) (chosen : List CompId) : Prop where
  on : ∀ b i, net.bases.idxOf? b = some i → p.on b = bits.getD i false
  does : ∀ i, net.isRole i .input = true → p.does i = chosen.contains i

theorem Primed.reading_eq_source (h : net.Primed) {p : Position} {bits : List Bool} {on : List CompId}
    (hs : net.Shows p bits on) (hon : net.Choosable on) (hc : net.contains c) :
    net.reading bits on c = net.source p c := by
  by_cases hb : c ∈ net.bases
  · obtain ⟨i, hi⟩ := Option.ne_none_iff_exists'.mp (fun hnone => (List.idxOf?_eq_none_iff.mp hnone) hb)
    rw [reading, hi, source_of_base p hb, hs.on c i hi]
  rw [reading, List.idxOf?_eq_none_iff.mpr hb]
  by_cases hr : net.isRole c .input
  · rw [source_of_input p hb hr, hs.does c hr]
    obtain ⟨k, hk⟩ := contains_iff.mp hc
    have hrole : k.hasRole .input := by rwa [isRole_of_get? hk] at hr
    have hcount := (h.input c k hk hrole).2
    have hval : net.valueAt c = false := by
      rw [valueAt_of_get? hk, (h.standard c k hk).value_of_plain (Component.isGate_of_hasRole hrole),
        hcount]
      rfl
    simp only [hval, Bool.or_false]
  · rw [source_of_other p hb hr]
    have hoff : on.contains c = false := by
      rw [Bool.eq_false_iff]
      intro hmem
      obtain ⟨k, hk, hrole⟩ := hon c (by simpa using hmem)
      exact hr (by rwa [isRole_of_get? hk])
    simp only [hoff, Bool.false_or]

def truth (net : Network) (p : Position) (c : CompId) : Bool := net.eval (net.source p) c

theorem Primed.eval_reading (h : net.Primed) {p : Position} {bits : List Bool} {on : List CompId}
    (hs : net.Shows p bits on) (hon : net.Choosable on) (hc : net.contains c) :
    net.eval (net.reading bits on) c = net.truth p c :=
  (obeys_eval h.balanced h.acyclic _).eq_eval h.balanced h.acyclic
    (fun _ hd hi => (eval_of_source _ hi).trans (h.reading_eq_source hs hon hd)) c hc

/-- Values that agree with what is given to components without inputs are what evaluating finds, except at
gates that are cut off. -/
theorem Obeys.eval_eq {v σ : CompId → Bool} (hv : net.Obeys v) (hb : net.Balanced) (ha : net.Acyclic)
    (hσ : ∀ d, net.Telling d → net.inputsOf d = [] → v d = σ d) {op : Op} (hop : net.op? c = some op)
    (hg : op.isGate = false) : net.eval σ c = v c := by
  have hpatch := (hv.patch hb (w := σ)).eq_eval hb ha (σ := σ) (fun d hd hi => ?_) c (contains_of_op? hop)
  · rw [← hpatch]
    split
    · next hnil => exact (hσ c (.inl ⟨op, hop, hg⟩) hnil.1).symm
    · rfl
  split
  · rfl
  next hnot =>
  refine hσ d ?_ hi
  exact .inr ⟨hd, hi, fun ho => hnot ⟨hi, ho⟩⟩

theorem Answers.truth_eq (h : net.Answers P ref) (hb : net.Balanced) (ha : net.Acyclic) {p : Position}
    (hP : P p) {op : Op} (hop : net.op? c = some op) (hg : op.isGate = false) : net.truth p c = ref p c := by
  obtain ⟨v, hv, href⟩ := h.fits p hP
  rw [truth, hv.obeys.eval_eq hb ha hv.sources hop hg, href c op hop hg]

end Evaluation

end Network

end GameNet
