import GameNet.Proofs.Variants.Basic

/-!
Networks with the control bases fixed, and a machine that goes from one to the other.

Where the bases are as they were fixed, a part plays and scores like the whole.
-/

namespace GameNet.Network

open List

/-! ## Fixing a base -/

section Fix

variable {net net' : Network} {c : CompId} {k : Component} {v : Bool} {P : Position → Prop}

theorem Recounts.truth_eq (h : Recounts net net') (hf : net.Formed)
    (hsrc : ∀ d, d ∉ net.bases → net.inputsOf d = [] → net'.valueAt d = net.valueAt d) (p : Position) :
    net'.truth p = net.truth p := by
  have hbases := field_of_parts Network.bases h.parts
  have hsource : ∀ d, net.inputsOf d = [] → net'.source p d = net.source p d := by
    intro d hi
    by_cases hb : d ∈ net.bases
    · rw [source_of_base p hb, source_of_base p (hbases ▸ hb)]
    · exact source_congr p (by rw [hbases]) (isRole_of_kind? (h.kind? d) .input) (hsrc d hb hi)
  funext d
  by_cases hd : net.contains d
  · refine Obeys.eq_eval (fun a op hop hi => ?_) hf.balanced hf.acyclic (fun a _ hi => ?_) d hd
    · rw [← h.op?] at hop
      rw [← h.inputsOf] at hi ⊢
      exact obeys_eval (h.balanced hf.balanced) (h.acyclic hf.acyclic) _ a op hop hi
    · rw [truth, eval_of_source _ ((h.inputsOf a).trans hi), hsource a hi]
  · have hi : net.inputsOf d = [] := by
      by_contra hne
      exact hd (contains_of_fed hne)
    rw [truth, truth, eval_of_source _ ((h.inputsOf d).trans hi), eval_of_source _ hi, hsource d hi]

theorem foldConstant_trimmed_of_propagate {traffic : Option Traffic} (hk : net.get? c = some k)
    (hnil : k.inputs = []) (hg : k.isGate = false) (h : net.propagate c v = .ok (net', traffic))
    (hr : Recounts net net') (hn : Constants.Trimmable False net') (hfirst : k.hasRole .input → v = false) :
    (net.foldConstant c v).Yields fun r => Trimmed net' c v r.1 := by
  obtain ⟨n, hk'⟩ := hr.get? hk
  unfold foldConstant
  refine .bind (.lift ⟨k, get_of_get? hk, rfl⟩) fun k₀ hk₀ => ?_
  cases hk₀
  simp only [hnil, hg, isEmpty_nil, Bool.not_true, Bool.false_eq_true, if_false]
  refine .bind (.lift ⟨(net', traffic), h, rfl⟩) fun r hr => ?_
  cases hr
  refine .bind (.pure (P := (· = net')) rfl) fun cur hcur => ?_
  cases hcur
  rw [← bind_assoc]
  refine .bind (Constants.fold_purged hn hk' hnil hfirst (gives_refl net' c v)) fun s hs => .pure ?_
  exact .of_purged hn.acyclic hs

theorem Finished.switchOn (h : net.Finished) (hc : c ∈ net.bases) :
    (net.propagate c true).Yields fun r => r.1.Finished ∧ Recounts net r.1 ∧
      ∀ d, net.inputsOf d = [] → r.1.countAt d = if d = c then 1 else net.countAt d := by
  obtain ⟨k, hk, hrole, hnil, hcount⟩ := h.primed.base c hc
  have hg := Component.isGate_of_hasRole hrole
  refine (propagate_yields h.formed.balanced h.formed.acyclic h.standard h.tallied
    ⟨k, hk, hnil, hg, hcount⟩).mono fun r hr => ?_
  obtain ⟨hrec, htal, hsame⟩ := hr
  have hother : ∀ d, d ≠ c → net.inputsOf d = [] → r.1.countAt d = net.countAt d := fun d hd hi => by
    rw [hsame d hi, if_neg hd]
  have hrole? : ∀ d role, r.1.isRole d role = net.isRole d role := fun d role =>
    isRole_of_kind? (hrec.kind? d) role
  have hbase : net.isRole c .base := (isRole_of_get? hk).trans hrole
  refine ⟨{
    formed := h.formed.recounts hrec
    seeded := ⟨fun b hb => ?_, fun i hi => ?_, fun d hop hi => ?_⟩
    ended := fun l hl => ?_
    narrow := fun d k' hk' => ?_
    fitted := h.fitted.recounts hrec
    tallied := htal
    resting := fun d k' hk' hi ho => ?_ }, hrec, hsame⟩
  · rw [field_of_parts Network.bases hrec.parts] at hb
    by_cases hbc : b = c
    · rw [hbc, hsame c ((inputsOf_of_get? hk).trans hnil), if_pos rfl]
      exact .inr rfl
    · rw [hother b hbc (h.formed.base b hb).2]
      exact h.seeded.base b hb
  · rw [hrole?] at hi
    rw [hother i (fun hic => by cases isRole_unique (hic ▸ hi) hbase) (h.formed.input i hi)]
    exact h.seeded.input i hi
  · rw [hrec.op?] at hop
    rw [hrec.inputsOf] at hi
    rw [hother d (fun hdc => by rw [hdc, op?_of_isRole hbase] at hop; cases hop) hi]
    exact h.seeded.constant d hop hi
  · rw [field_of_parts Network.legals hrec.parts] at hl
    rw [hrec.outputsOf]
    exact h.ended l hl
  · obtain ⟨n, hold⟩ := hrec.symm.get? hk'
    exact (h.narrow d (k'.counting n) hold :)
  · obtain ⟨n, hold⟩ := hrec.symm.get? hk'
    have hcount' := hsame d ((inputsOf_of_get? hold).trans hi)
    rw [countAt_of_get? hk', countAt_of_get? hold] at hcount'
    split at hcount'
    · next hdc =>
      rw [hdc, hk, Option.some.injEq] at hold
      refine ⟨by rw [hcount']; decide, fun hop => ?_⟩
      have hgate : k'.isGate := by rcases hop with hop | hop <;> rw [Component.isGate, hop] <;> rfl
      have hg' : k'.isGate = false := (hold ▸ hg :)
      rw [hg'] at hgate
      cases hgate
    · rw [hcount']
      exact h.resting d (k'.counting n) hold hi ho

def Sole (b : CompId) (controls : List CompId) (on : CompId → Bool) : Prop :=
  on b = true ∧ ∀ b' ∈ controls, b' ≠ b → on b' = false

structure Fixed (net : Network) (P : Position → Prop) (cur : Network) : Prop where
  trimming : Trimming cur
  parts : cur.parts = net.parts
  kept : ∃ lit, Recounts net lit ∧ Keeps lit cur
  answers : cur.Answers P net.truth

theorem Finished.fixOn (h : net.Finished) (hc : c ∈ net.bases)
    (hquiet : ∀ p, P p → P p.quiet) (hP : ∀ p, P p → net.Permits p) (hon : ∀ p, P p → p.on c) :
    (net.foldConstants [c] true).Ensures fun cur => Fixed net P cur ∧
      ∀ b ∈ net.bases, b ≠ c → cur.countAt b = net.countAt b := by
  obtain ⟨k, hk, hrole, hnil, -⟩ := h.primed.base c hc
  have hg := Component.isGate_of_hasRole hrole
  obtain ⟨⟨lit, traffic⟩, hprop, hfin, hrec, hsame⟩ := h.switchOn hc
  have hbases := field_of_parts Network.bases hrec.parts
  have htruth : lit.truth = net.truth := by
    refine funext fun p => hrec.truth_eq h.formed (fun d hd hi => hrec.valueAt_eq ?_) p
    rw [hsame d hi, if_neg]
    rintro rfl
    exact hd hc
  have hpermits : ∀ p, P p → lit.Permits p := fun p hp i hi hdoes => by
    obtain ⟨l, hl, hval⟩ := hP p hp i ((isRole_of_kind? (hrec.kind? i) .input).symm.trans hi) hdoes
    exact ⟨l, (pairedInput?_of_kind? (hrec.kind? l)).trans hl, htruth ▸ hval⟩
  have hlit : lit.Answers P net.truth := htruth ▸ hfin.answers hquiet hpermits
  unfold foldConstants
  rw [foldlM_cons]
  refine .bind (P := fun cur => Fixed net P cur ∧ ∀ b ∈ net.bases, b ≠ c → cur.countAt b = net.countAt b)
    (.bind (foldConstant_trimmed_of_propagate hk hnil hg hprop hrec hfin.toTrimming.trimmable
      fun hr => ?_).ensures fun r ht => .pure ?_) fun cur hcur => .pure hcur
  · have hbase : net.isRole c .base := (isRole_of_get? hk).trans hrole
    cases isRole_unique ((isRole_of_get? hk).trans hr) hbase
  obtain ⟨n, hk'⟩ := hrec.get? hk
  have hcount : (k.counting n).count = countOf true := by
    rw [← countAt_of_get? hk', hsame c ((inputsOf_of_get? hk).trans hnil), if_pos rfl]
    rfl
  obtain ⟨htrim, hanswers⟩ := hfin.toTrimming.trimmed_at hk' hnil ht
    (hfin.toTrimming.value_of_count hk' hg hcount)
  have hkeeps := ht.keepsAll hfin.formed.balanced
  refine ⟨⟨htrim, ht.parts.trans hrec.parts, ⟨lit, hrec, hkeeps⟩, ?_⟩, fun b hb hne => ?_⟩
  · refine hanswers P _ hlit fun p hp => ?_
    rw [source_of_base p (hbases ▸ hc)]
    exact hon p hp
  have hb₁ : b ∈ lit.bases := hbases ▸ hb
  have hb₂ : b ∈ r.1.bases := field_of_parts Network.bases ht.parts ▸ hb₁
  rw [hkeeps.countAt (op?_of_isRole (hfin.formed.base b hb₁).1) rfl
    (contains_of_isRole (htrim.formed.base b hb₂).1), hsame b (h.formed.base b hb).2, if_neg hne]

theorem Fixed.fixOff {cur : Network} (h : Fixed net P cur) {b : CompId}
    (hb : b ∈ net.bases) (hzero : cur.countAt b = 0) (hoff : ∀ p, P p → p.on b = false) :
    (cur.foldConstant b false).Ensures fun r => Fixed net P r.1 ∧
      ∀ b' ∈ net.bases, r.1.countAt b' = cur.countAt b' := by
  have hbases := field_of_parts Network.bases h.parts
  obtain ⟨hrole, hi⟩ := h.trimming.formed.base b (hbases ▸ hb)
  obtain ⟨k, hk⟩ := contains_iff.mp (contains_of_isRole hrole)
  have hnil : k.inputs = [] := (inputsOf_of_get? hk).symm.trans hi
  have hop : k.op = .proposition := op_of_get? hk (op?_of_isRole hrole)
  have hg : k.isGate = false := by rw [Component.isGate, hop]; rfl
  have hcount : k.count = countOf false := (countAt_of_get? hk).symm.trans hzero
  refine (foldConstant_trimmed h.trimming.trimmable hk hnil (by rw [hop]; decide) (.inr ⟨hg, hcount⟩)
    fun _ => rfl).ensures.mono fun r ht => ?_
  have hkeeps := ht.keepsAll h.trimming.formed.balanced
  obtain ⟨htrim, hanswers⟩ := h.trimming.trimmed_at hk hnil ht (h.trimming.value_of_count hk hg hcount)
  obtain ⟨lit, hrec, hlit⟩ := h.kept
  refine ⟨⟨htrim, ht.parts.trans h.parts, ⟨lit, hrec, hlit.trans hkeeps⟩, ?_⟩, fun b' hb' => ?_⟩
  · refine hanswers P _ h.answers fun p hp => ?_
    rw [source_of_base p (hbases ▸ hb)]
    exact hoff p hp
  have hb₁ : b' ∈ cur.bases := hbases ▸ hb'
  have hb₂ : b' ∈ r.1.bases := field_of_parts Network.bases ht.parts ▸ hb₁
  exact hkeeps.countAt (op?_of_isRole (h.trimming.formed.base b' hb₁).1) rfl
    (contains_of_isRole (htrim.formed.base b' hb₂).1)

theorem Fixed.fixAllOff {cur : Network} (h : Fixed net P cur) {bs : List CompId}
    (hbs : ∀ b ∈ bs, b ∈ net.bases ∧ cur.countAt b = 0 ∧ ∀ p, P p → p.on b = false) :
    (cur.foldConstants bs false).Ensures (Fixed net P) := by
  refine (Observed.partly.foldlM (fun rest cur => Fixed net P cur ∧ ∀ b ∈ rest, b ∈ net.bases ∧
    cur.countAt b = 0 ∧ ∀ p, P p → p.on b = false) (fun b rest cur hcur => ?_) bs cur ⟨h, hbs⟩).mono
    fun cur hcur => hcur.1
  obtain ⟨hfixed, hrest⟩ := hcur
  obtain ⟨hb, hzero, hoff⟩ := hrest b mem_cons_self
  refine .bind (hfixed.fixOff hb hzero hoff) fun r hr => .pure ⟨hr.1, fun b' hb' => ?_⟩
  obtain ⟨hmem, hzero', hoff'⟩ := hrest b' (mem_cons_of_mem b hb')
  exact ⟨hmem, (hr.2 b' hmem).trans hzero', hoff'⟩

end Fix

/-! ## The parts of a split -/

section Split

variable {net : Network}

theorem Trimming.ready (h : Trimming net) (opts : Options) :
    (do
      let (net, _) ← net.optimize {}
      let net ← net.settle opts
      Observed.stage "split" net
      return net : Observed Network).Ensures fun net' =>
        ∃ last, Later net last ∧ last.parts = net.parts ∧ Readied last net' := by
  refine .bind (h.formed.optimizeKeeping _).ensures fun r hr => ?_
  obtain ⟨htrim, hlater⟩ := h.sound hr.1 fun _ hc => hc
  refine .bind (settle_ensures htrim.formed hr.2.2 htrim.seeded htrim.ended opts) fun net' hnet' => ?_
  refine .bind .trivial fun _ _ => .pure ?_
  exact ⟨r.1, hlater, hr.1.parts, hnet'⟩

structure PartOf (net : Network) (controls : List CompId) (b : CompId) (part : Network) : Prop where
  plays : PlaysLike (Sole b controls) net part
  scores : ScoresLike (Sole b controls) net part
  fixedBase : part.fixedBase = some b

theorem Finished.fixControl (h : net.Finished) (hu : net.Unlit) {cb : ControlBases}
    (hstrip : cb.stripGoals = false) (hsub : ∀ b ∈ cb.bases, b ∈ net.bases) (hnodup : cb.bases.Nodup)
    {k : Nat} {b : CompId} (hk : cb.bases[k]? = some b) (opts : Options) :
    (net.fixControl cb k b opts).Ensures (PartOf net cb.bases b) := by
  have hb := mem_of_getElem? hk
  have hanswers := fun p (hp : net.Permits p ∧ Sole b cb.bases p.on) => hp.1
  unfold Network.fixControl
  rw [hstrip]
  refine .bind (P := (· = net)) (.pure rfl) fun net₀ hnet₀ => ?_
  subst hnet₀
  refine .bind (h.fixOn (hsub b hb) (fun p hp => ⟨net₀.permits_quiet p, hp.2⟩) hanswers fun p hp => hp.2.1)
    fun cur hcur => ?_
  obtain ⟨hfixed, hcount⟩ := hcur
  refine .bind (hfixed.fixAllOff fun b' hb' => ?_) fun cur' hcur' => ?_
  · obtain ⟨⟨b'', j⟩, hmem, rfl⟩ := mem_map.mp hb'
    obtain ⟨hmem, hj⟩ := mem_filter.mp hmem
    have hj' : cb.bases[j]? = some b'' := mem_zipIdx_iff_getElem?.mp hmem
    have hne : b'' ≠ b := by
      rintro rfl
      obtain ⟨hlt, -⟩ := List.getElem?_eq_some_iff.mp hj'
      exact of_decide_eq_true hj ((getElem?_inj hlt hnodup).mp (hj'.trans hk.symm))
    have hmem' := hsub b'' (mem_of_getElem? hj')
    exact ⟨hmem', (hcount b'' hmem' hne).trans (hu b'' hmem'), fun p hp =>
      hp.2.2 b'' (mem_of_getElem? hj') hne⟩
  have ht := hcur'.trimming.reseat (some b) rfl fun _ hg => hg
  refine .bind (ht.formed.optimizeKeeping _).ensures fun r₁ h₁ => ?_
  obtain ⟨ht₁, hl₁⟩ := ht.sound h₁.1 fun _ hc => hc
  -- capping the fan-in or not, what follows keeps the parts and the answers
  have hpart : ∀ {mid : Network}, Later r₁.1 mid → mid.parts = r₁.1.parts → ∀ net',
      (∃ last, Later mid last ∧ last.parts = mid.parts ∧ Readied last net') →
      PartOf net₀ cb.bases b net' := by
    rintro mid hmid hmidParts net' ⟨last, hlast, hlastParts, hr⟩
    have hlater := (hl₁.trans hmid).trans hlast
    have hparts : last.parts = Network.parts { net₀ with fixedBase := some b } := by
      rw [hlastParts, hmidParts, h₁.1.parts]
      exact congrArg (fun n : Network => { n with fixedBase := some b }) hcur'.parts
    have hbases := field_of_parts Network.bases hparts
    have htrans := field_of_parts Network.transitions hparts
    have hstart := field_of_parts Network.initialState hparts
    have hterm := field_of_parts Network.terminal hparts
    have hplayers := field_of_parts Network.players hparts
    have hfix := field_of_parts Network.fixedBase hparts
    have hkind : SameKinds net₀ last := fun c hc hc' => by
      obtain ⟨lit, hrec, hkeeps⟩ := hcur'.kept
      have hk : Keeps lit last := hkeeps.trans ⟨hlater.keeps.capacity, hlater.keeps.old⟩
      exact (hk.kind? ((hrec.contains c).trans hc) hc').trans (hrec.kind? c)
    have hans := hlater.answers _ _ (hcur'.answers.reseat _ (some b))
    refine ⟨hr.playsLike h hkind hbases htrans hstart hterm (fun role => by rw [hplayers]) hans,
      hr.scoresLike h hkind hbases (fun role => by rw [hplayers]) hans
        (fun p hp => ⟨net₀.permits_quiet p, hp⟩) fun _ _ _ => rfl, ?_⟩
    rw [hr.field Network.fixedBase, hfix]
  dsimp only
  split
  · refine .bind (.lift (capFanIn_ensures ht₁.formed.balanced ht₁.formed.acyclic opts.maxFanIn))
      fun r₂ h₂ => ?_
    obtain ⟨ht₂, hl₂⟩ := ht₁.sound h₂.1 fun _ _ => trivial
    refine .bind (P := (· = r₂.1)) (.pure rfl) fun net₂ hnet₂ => ?_
    subst hnet₂
    exact (ht₂.ready opts).mono (hpart hl₂ h₂.1.parts)
  · refine .bind (P := (· = r₁.1)) (.pure rfl) fun net₂ hnet₂ => ?_
    subst hnet₂
    exact (ht₁.ready opts).mono (hpart (.refl _) rfl)

theorem Finished.split (h : net.Finished) (hu : net.Unlit) {cb : ControlBases}
    (hstrip : cb.stripGoals = false) (hsub : ∀ b ∈ cb.bases, b ∈ net.bases) (hnodup : cb.bases.Nodup)
    (opts : Options) : (net.split cb opts).Ensures (List.Forall₂ (PartOf net cb.bases) cb.bases) := by
  refine (Observed.partly.mapM (R := fun x => PartOf net cb.bases x.1) cb.bases.zipIdx fun x hx => ?_).mono
    fun nets hnets => ?_
  · exact h.fixControl hu hstrip hsub hnodup (mem_zipIdx_iff_getElem?.mp hx) opts
  have hall : List.Forall₂ (PartOf net cb.bases) (cb.bases.zipIdx.map Prod.fst) nets :=
    forall₂_map_left_iff.mpr hnets
  rwa [zipIdx_map_fst] at hall

end Split

end GameNet.Network
