import GameNet.Proofs.Eval.Recount
import GameNet.Proofs.Simplify.Normal
import GameNet.Proofs.Simplify.Survivors

/-!
What the optimizer leaves of right counts.

Merging gates and dropping repeated edges changes counts one edge at a time, from values that may be out
of date. So a gate may have a wrong count in the end.
-/

namespace GameNet

namespace Component

variable {k k' : Component}

theorem Shaped.standard (h : k.Shaped) (hand : k.op = .and →
    k.reqTrue = k.inputs.length ∧ k.reqFalse = k.inputs.length - 1) : k.Standard := by
  obtain ⟨hsign, hreq⟩ := h
  by_cases hop : k.op = .and
  · obtain ⟨htrue, hfalse⟩ := hand hop
    exact ⟨by rw [if_pos hop, htrue], by rw [if_pos hop, hfalse], hsign⟩
  · obtain ⟨htrue, hfalse⟩ := hreq hop
    exact ⟨by rw [if_neg hop, htrue], by rw [if_neg hop, hfalse], hsign⟩

theorem count_of_bare (h : k.bare = k'.bare) : k.count = k'.count := by
  have hcount := congrArg count h
  exact hcount

theorem value_of_bare (h : k.bare = k'.bare) : k.value = k'.value := by
  have hvalue := congrArg value h
  exact hvalue

end Component

namespace Network

theorem countAt_of_bare? {net net' : Network} {c : CompId} (h : net'.bare? c = net.bare? c) :
    net'.countAt c = net.countAt c := by
  have hcount := congrArg (fun k : Option Component => k.elim 0 Component.count) h
  simp only [bare?, Option.elim_map] at hcount
  exact hcount

theorem valueAt_of_bare? {net net' : Network} {c : CompId} (h : net'.bare? c = net.bare? c) :
    net'.valueAt c = net.valueAt c := by
  have hvalue := congrArg (fun k : Option Component => k.elim false Component.value) h
  simp only [bare?, Option.elim_map] at hvalue
  exact hvalue

section Sound

variable {keep : CompId → Prop} {net net' net'' : Network} {c : CompId} {k : Component}
variable (h : Sound keep net net')
include h

theorem Sound.standard (hstd : net.Standard) (hand : ∀ c k, net'.get? c = some k → k.op = .and →
      k.reqTrue = k.inputs.length ∧ k.reqFalse = k.inputs.length - 1) : net'.Standard := by
  intro c k' hk'
  have hshaped : k'.Shaped := by
    by_cases hc : net.contains c
    · obtain ⟨k, hk⟩ := contains_iff.mp hc
      have hface := h.face c hc (contains_of_get? hk')
      rw [face?, face?, hk, hk'] at hface
      refine Component.Shaped.of_face ⟨(hstd c k hk).sign, fun hop => ?_⟩ (Option.some.inj hface)
      have hreq := (hstd c k hk).reqTrue
      have hreq' := (hstd c k hk).reqFalse
      rw [if_neg hop] at hreq hreq'
      exact ⟨hreq, hreq'⟩
    · exact (h.fresh c (contains_of_get? hk') (Bool.eq_false_iff.mpr hc)).2.2.2 k' hk'
  exact hshaped.standard (hand c k' hk')

theorem Sound.contains_of_op (hk : net'.get? c = some k)
    (hand : k.op ≠ .and) (hor : k.op ≠ .or) : net.contains c := by
  by_contra hc
  have hop := (h.fresh c (contains_of_get? hk) (Bool.eq_false_iff.mpr hc)).2.1
  rw [op?_of_get? hk] at hop
  rcases hop with hop | hop
  · exact hand (Option.some.inj hop)
  · exact hor (Option.some.inj hop)

theorem Sound.op?_of_plain {op : Op} (hop : net'.op? c = some op)
    (hg : op.isGate = false) : net.op? c = some op := by
  have hc' := contains_of_op? hop
  obtain ⟨k, hk⟩ := contains_iff.mp hc'
  have hkop : k.op = op := Option.some.inj ((op?_of_get? hk).symm.trans hop)
  have hc := h.contains_of_op hk (fun hand => by rw [← hkop, hand] at hg; cases hg)
    fun hor => by rw [← hkop, hor] at hg; cases hg
  exact (h.op? hc hc').symm.trans hop

theorem Sound.bare_of_held (hk : net'.get? c = some k) (hand : k.op ≠ .and) (hor : k.op ≠ .or)
    (hheld : Recount.Held net' k) : ∃ k0, net.get? c = some k0 ∧ k.bare = k0.bare := by
  have hc' := contains_of_get? hk
  have hc := h.contains_of_op hk hand hor
  obtain ⟨k0, hk0⟩ := contains_iff.mp hc
  have hop := h.op? hc hc'
  refine ⟨k0, hk0, ?_⟩
  suffices hbare : net'.bare? c = net.bare? c by
    rw [bare?, bare?, hk, hk0] at hbare
    exact Option.some.inj hbare
  by_cases hg : k.op.isGate
  · have hi : k.inputs = [] := by
      rcases hheld with hi | hop | ⟨hop, -⟩
      · exact hi
      · rw [hop] at hg
        cases hg
      · rw [hop] at hg
        cases hg
    have hsrc := (h.source hc' (by rw [inputsOf_of_get? hk]; exact hi)).2
    refine (h.leaf c hc hc' hsrc).2.resolve_right fun hstill => hand ?_
    rw [hstill.1, op?_of_get? hk] at hop
    exact Option.some.inj hop
  · exact h.bare? (hop.symm.trans (op?_of_get? hk)) (Bool.eq_false_iff.mpr hg) hc'

theorem Sound.narrows (hn : net.Narrow) : net'.Narrow := by
  intro c k' hk'
  have hc' := contains_of_get? hk'
  have hold : k'.op ≠ .and → k'.op ≠ .or → ∃ k, net.get? c = some k ∧ k.op = k'.op := by
    intro hand hor
    have hc := h.contains_of_op hk' hand hor
    obtain ⟨k, hk⟩ := contains_iff.mp hc
    have hop := h.op? hc hc'
    rw [op?_of_get? hk, op?_of_get? hk'] at hop
    exact ⟨k, hk, (Option.some.inj hop).symm⟩
  rw [← inputsOf_of_get? hk']
  constructor
  · intro hand hor
    obtain ⟨k, hk, hop⟩ := hold hand hor
    refine h.narrow c k.op (op?_of_get? hk) (hop ▸ hand) (hop ▸ hor) ?_
    rw [inputsOf_of_get? hk]
    exact (hn c k hk).1 (hop ▸ hand) (hop ▸ hor)
  · intro hconst
    obtain ⟨k, hk, hop⟩ := hold (by simp [hconst]) (by simp [hconst])
    refine (h.leaf c (contains_of_get? hk) hc' ?_).1
    rw [inputsOf_of_get? hk]
    exact (hn c k hk).2 (hop.trans hconst)

theorem Sound.countable (hs : net.Settled) (hn : net.Narrow)
    (hl : net.LeavesSet) : Recount.Countable net' := by
  intro c k' hk' hand hor
  refine ⟨fun hheld => ?_, fun _ => (h.narrows hn c k' hk').1 hand hor⟩
  obtain ⟨k, hk, hbare⟩ := h.bare_of_held hk' hand hor hheld
  rw [Component.count_of_bare hbare]
  exact hs.count_ne_unset hl hk

section

variable (hr : net'.Recounted net'.sinks net'') (hs : net.Settled) (hstd : net.Standard)
include hr hs hstd

theorem Sound.countAt_of_source (hc' : net'.contains c)
    (hi : net'.inputsOf c = []) : net''.countAt c = net.countAt c := by
  obtain ⟨hc, hsrc⟩ := h.source hc' hi
  obtain ⟨k, hk⟩ := contains_iff.mp hc
  obtain ⟨k', hk'⟩ := contains_iff.mp hc'
  rw [inputsOf_of_get? hk] at hsrc
  rw [inputsOf_of_get? hk'] at hi
  have hop : k'.op = k.op := by
    have hop := h.op? hc hc'
    rw [op?_of_get? hk, op?_of_get? hk'] at hop
    exact Option.some.inj hop
  by_cases hlat : k'.op = .and ∨ k'.op = .or
  · have hzero : net.countAt c = 0 := hs.countAt_of_gate hk (by
      rw [Component.isGate, ← hop]
      rcases hlat with hlat | hlat <;> rw [hlat] <;> rfl) hsrc
    rw [hzero]
    rcases hr.same c with hsame | hup
    · -- it was not counted, so it has what the optimizer has left there
      rw [hsame]
      rcases (h.leaf c hc hc' (by rw [inputsOf_of_get? hk]; exact hsrc)).2 with hbare | ⟨hand, hrest⟩
      · rw [bare?, bare?, hk, hk'] at hbare
        rw [countAt_of_get? hk', Component.count_of_bare (Option.some.inj hbare),
          ← countAt_of_get? hk, hzero]
      rw [op?_of_get? hk] at hand
      have hreq := (hstd c k hk).reqTrue
      rw [if_pos (Option.some.inj hand), hsrc] at hreq
      obtain ⟨x, hx, hcount, -⟩ := hrest ⟨k, hk, (countAt_of_get? hk).symm.trans hzero, hreq⟩
      rw [countAt_of_get? hx, hcount]
    · obtain ⟨n, hk''⟩ := hr.recounts.get? hk'
      have hcount := (hr.exact c hup _ hk'').gate hlat
      rw [countAt_of_get? hk'', hcount]
      change ((k'.inputs.countP net''.valueAt : Nat) : Int) = 0
      rw [hi]
      rfl
  · have hand : k'.op ≠ .and := fun hand => hlat (.inl hand)
    have hor : k'.op ≠ .or := fun hor => hlat (.inr hor)
    obtain ⟨k0, hk0, hbare⟩ := h.bare_of_held hk' hand hor (.inl hi)
    rw [hr.held c k' hk' hand hor (.inl hi), countAt_of_get? hk', countAt_of_get? hk0,
      Component.count_of_bare hbare]

/-- The values that are stored once gates have been counted anew are those that the stored values
before the optimizer give. -/
theorem Sound.valueAt_recounted (hstd' : net'.Standard) {w : CompId → Bool} (hw : net'.Obeys w)
    (hobs : ∀ c, net.Observable c → net'.contains c → w c = net.valueAt c) (hc : net'.contains c) :
    net''.valueAt c = w c := by
  have hstd'' := hr.recounts.standard hstd'
  induction c using h.acyclic.induct_inputs h.balanced with
  | step c ih =>
    obtain ⟨k', hk'⟩ := contains_iff.mp hc
    obtain ⟨m, hk''⟩ := hr.recounts.get? hk'
    by_cases hi : net'.inputsOf c = []
    · obtain ⟨hc0, hsrc⟩ := h.source hc hi
      obtain ⟨k, hk⟩ := contains_iff.mp hc0
      rw [hobs c (.inr ⟨hc0, hsrc⟩) hc, valueAt_of_get? hk'', valueAt_of_get? hk]
      have hcount := h.countAt_of_source hr hs hstd hc hi
      rw [countAt_of_get? hk'', countAt_of_get? hk] at hcount
      have hop := h.op? hc0 hc
      rw [op?_of_get? hk, op?_of_get? hk'] at hop
      rw [inputsOf_of_get? hk] at hsrc
      rw [inputsOf_of_get? hk'] at hi
      have hstdc := hstd c k hk
      have hstdc'' := hstd'' c _ hk''
      rw [Component.value, Component.value, hstdc.reqTrue, hstdc.sign, hstdc''.reqTrue, hstdc''.sign,
        hcount, hsrc, ← Option.some.inj hop, ← hi]
      rfl
    have hexact := hr.exact_of_fed h.balanced h.acyclic hi _ hk''
    have hread : m = (k'.inputs.countP net''.valueAt : Nat) → net''.valueAt c = w c := by
      intro hcount
      rw [valueAt_of_get? hk'', (hstd'' c _ hk'').value_eq_read hcount,
        hw c k'.op (op?_of_get? hk') hi, inputsOf_of_get? hk']
      refine Op.read_of_forall_eq k'.op fun a hmem => ?_
      have hfeeds : a ∈ net'.inputsOf c := by
        rw [inputsOf_of_get? hk']
        exact hmem
      exact ih a hfeeds (h.balanced.contains_source hfeeds)
    by_cases hlat : k'.op = .and ∨ k'.op = .or
    · exact hread (hexact.gate hlat)
    have hand : k'.op ≠ .and := fun hand => hlat (.inl hand)
    have hor : k'.op ≠ .or := fun hor => hlat (.inr hor)
    by_cases hheld : Recount.Held net' k'
    · -- a proposition that keeps its count keeps its value
      obtain ⟨k, hk, hbare⟩ := h.bare_of_held hk' hand hor hheld
      have hop := h.op? (contains_of_get? hk) hc
      have hgate : k'.op.isGate = false := by
        rcases hheld with hnil | hop | ⟨hop, -⟩
        · rw [inputsOf_of_get? hk'] at hi
          exact absurd hnil hi
        · rw [hop]
          rfl
        · rw [hop]
          rfl
      rw [op?_of_get? hk'] at hop
      rw [hobs c (.inl ⟨k'.op, hop.symm, hgate⟩) hc, valueAt_of_get? hk,
        hr.recounts.valueAt_eq (hr.held c k' hk' hand hor hheld), valueAt_of_get? hk']
      exact Component.value_of_bare hbare
    · exact hread (hexact.fed hand hor fun hheld' => hheld (by
        have hback := hheld'.of_recounts hr.recounts.symm k'.count
        exact hback)).2

theorem Sound.settled_recounted (hstd' : net'.Standard) (hn : net.Narrow) : net''.Settled := by
  obtain ⟨w, hw, hobs⟩ := h.values net.valueAt (hs.tallied.obeys hstd)
  have hvalue := fun c => h.valueAt_recounted hr hs hstd hstd' (c := c) hw hobs
  intro c k'' hk'' hcase
  obtain ⟨m, hk'⟩ := hr.recounts.symm.get? hk''
  have hc := contains_of_get? hk'
  by_cases hi : k''.inputs = []
  · -- a gate without inputs
    have hg : k''.isGate := hcase.resolve_right fun hne => hne hi
    obtain ⟨hc0, hsrc⟩ := h.source hc (by rw [inputsOf_of_get? hk']; exact hi)
    obtain ⟨k, hk⟩ := contains_iff.mp hc0
    have hop := h.op? hc0 hc
    rw [op?_of_get? hk, op?_of_get? hk'] at hop
    have hop : k''.op = k.op := Option.some.inj hop
    rw [inputsOf_of_get? hk] at hsrc
    have hcount := h.countAt_of_source hr hs hstd hc (by rw [inputsOf_of_get? hk']; exact hi)
    rw [hs.countAt_of_gate hk (by rw [Component.isGate, ← hop]; exact hg) hsrc,
      countAt_of_get? hk''] at hcount
    rw [hcount, hi]
    rfl
  have hfed : net'.inputsOf c ≠ [] := by
    rw [inputsOf_of_get? hk']
    exact hi
  have hexact := hr.exact_of_fed h.balanced h.acyclic hfed _ hk''
  by_cases hlat : k''.op = .and ∨ k''.op = .or
  · exact hexact.gate hlat
  have hand : k''.op ≠ .and := fun hand => hlat (.inl hand)
  have hor : k''.op ≠ .or := fun hor => hlat (.inr hor)
  by_cases hheld : Recount.Held net'' k''
  · -- a proposition that is fed by a transition: its count is its value, which is that of its input
    have hback := hheld.of_recounts hr.recounts.symm m
    obtain ⟨k, hk, hbare⟩ := h.bare_of_held hk' hand hor hback
    have hc0 := contains_of_get? hk
    have hop0 : k''.op = k.op := by
      have hop := congrArg Component.op hbare
      exact hop
    have hm : m = k.count := Component.count_of_bare hbare
    rcases hheld with hnil | hop | ⟨hop, t, hin, -⟩
    · exact absurd hnil hi
    · have hnone := (hn c k hk).2 (hop0.symm.trans hop)
      have hempty := (h.leaf c hc0 hc (by rw [inputsOf_of_get? hk]; exact hnone)).1
      exact absurd hempty hfed
    have hsame := hr.held c _ hk' hand hor hback
    rw [countAt_of_get? hk', countAt_of_get? hk''] at hsame
    have hsame : k''.count = k.count := hsame.trans hm
    have hfed0 : k.inputs ≠ [] := by
      intro hnil
      exact hfed (h.leaf c hc0 hc (by rw [inputsOf_of_get? hk]; exact hnil)).1
    have hbit := hs.count_bit hn hk (by rw [Component.isGate, ← hop0, hop]; rfl) hfed0
    have hval := hvalue c hc
    have hin' : net'.inputsOf c = [t] := by
      rw [inputsOf_of_get? hk']
      exact hin
    rw [hw c .proposition (by rw [op?_of_get? hk']; exact congrArg some hop) hfed, hin',
      Op.read_singleton _ (by decide),
      ← hvalue t (h.balanced.contains_source (b := c) (by rw [hin']; exact List.mem_singleton_self t)),
      valueAt_of_get? hk'',
      (hr.recounts.standard hstd' c k'' hk'').value_of_plain (by rw [Component.isGate, hop]; rfl)] at hval
    rw [hin, List.countP_singleton, ← hval, hsame]
    rcases hbit with hbit | hbit <;> rw [hbit] <;> rfl
  · exact (hexact.fed hand hor hheld).2

theorem Sound.countAt_of_plain (hstd' : net'.Standard) (hn : net.Narrow) {op : Op}
    (hop : net'.op? c = some op) (hg : op.isGate = false) : net''.countAt c = net.countAt c := by
  have hc := contains_of_op? hop
  by_cases hi : net'.inputsOf c = []
  · exact h.countAt_of_source hr hs hstd hc hi
  obtain ⟨w, hw, hobs⟩ := h.values net.valueAt (hs.tallied.obeys hstd)
  obtain ⟨k', hk'⟩ := contains_iff.mp hc
  obtain ⟨m, hk''⟩ := hr.recounts.get? hk'
  have hg' : k'.isGate = false := by
    rw [Component.isGate, Option.some.inj ((op?_of_get? hk').symm.trans hop)]
    exact hg
  have hop0 := h.op?_of_plain hop hg
  have hc0 := contains_of_op? hop0
  obtain ⟨k, hk⟩ := contains_iff.mp hc0
  have hg0 : k.isGate = false := by
    rw [Component.isGate, Option.some.inj ((op?_of_get? hk).symm.trans hop0)]
    exact hg
  have hfed : k.inputs ≠ [] := fun hnil =>
    hi (h.leaf c hc0 hc (by rw [inputsOf_of_get? hk]; exact hnil)).1
  -- both counts are 0 or 1, and they give the same value
  have hbit := hs.count_bit hn hk hg0 hfed
  have hbit' := (h.settled_recounted hr hs hstd hstd' hn).count_bit
    (hr.recounts.narrow (h.narrows hn)) hk'' hg' (by rw [inputsOf_of_get? hk'] at hi; exact hi)
  have hvalue := (h.valueAt_recounted hr hs hstd hstd' hw hobs hc).trans (hobs c (.inl ⟨op, hop0, hg⟩) hc)
  rw [valueAt_of_get? hk'', valueAt_of_get? hk, (hstd c k hk).value_of_plain hg0,
    (hr.recounts.standard hstd' c _ hk'').value_of_plain hg', decide_eq_decide] at hvalue
  rw [countAt_of_get? hk'', countAt_of_get? hk]
  omega

end

end Sound

/-! ## Where only dead ends go -/

section Tight

variable {mode : Optimize.Mode} {net net' : Network}

/-- Nothing but dead ends can be taken away: no two gates are alike, no edge is repeated, and nothing reads
what might be spliced out. -/
structure Tight (net : Network) : Prop where
  keys : net.KeysDiffer
  edges : ∀ c k, net.get? c = some k → k.outputs.Nodup
  passing : ∀ c k, net.get? c = some k → k.op ∈ [Op.and, .or, .proposition] →
    c ∉ net.protectedIds true → k.inputs.length = 1 → k.outputs = []

theorem Tight.prunes (h : net.Tight) (hp : Prunes net net') : net'.Tight where
  keys c d k k' hk hk' hg hi hkey := by
    obtain ⟨k₀, hk₀, he, -⟩ := hp.old c k hk
    obtain ⟨k₀', hk₀', he', -⟩ := hp.old d k' hk'
    rw [he] at hg hi hkey
    rw [he'] at hkey
    exact h.keys c d k₀ k₀' hk₀ hk₀' hg hi hkey
  edges c k hk := by
    obtain ⟨k₀, hk₀, -, hsub⟩ := hp.old c k hk
    exact (h.edges c k₀ hk₀).sublist hsub
  passing c k hk hop hc hone := by
    obtain ⟨k₀, hk₀, he, hsub⟩ := hp.old c k hk
    rw [protectedIds_of_parts hp.parts] at hc
    rw [he] at hop hone
    rw [h.passing c k₀ hk₀ hop hc hone] at hsub
    exact List.sublist_nil.mp hsub

theorem Tight.pass (h : net.Tight) (hm : mode.allPasses = false) {p : Optimize.Pass}
    (hp : p ∈ Optimize.passes mode (net.protectedIds true)) (hn : Prunes net net') (hb : net'.Balanced) :
    (p.run net').Ensures fun r => Prunes net r.1 ∧ r.1.Balanced := by
  have ht := h.prunes hn
  have hstay : ∀ {x : Checked (Network × Nat)}, x = .ok (net', 0) →
      x.Ensures fun r => Prunes net r.1 ∧ r.1.Balanced := by
    rintro _ rfl r hr
    cases hr
    exact ⟨hn, hb⟩
  simp only [Optimize.passes, hm, Bool.false_eq_true, if_false, List.append_nil, List.cons_append,
    List.nil_append, List.mem_cons, List.not_mem_nil, or_false] at hp
  rcases hp with rfl | rfl | rfl | rfl
  · exact (removeDeadEnds_pruning hb _).ensures.mono fun r hr => ⟨hn.trans hr.prunes, hr.balanced⟩
  · exact hstay (shareGates_eq_zero_iff.mpr ⟨rfl, ht.keys⟩)
  · refine hstay (removePassThrough_eq_zero_iff.mpr ⟨rfl, fun c k hk hop hc x hx => .inl ?_⟩)
    rw [← protectedIds_of_parts hn.parts] at hc
    exact ht.passing c k hk hop hc (by rw [hx]; rfl)
  · exact hstay (dropRepeatedEdges_eq_zero_iff.mpr ⟨rfl, ht.edges⟩)

theorem Tight.round (h : net.Tight) (hm : mode.allPasses = false) (hb : net.Balanced) :
    (Optimize.round mode net).Ensures fun r => Prunes net r.1 ∧ r.1.Balanced := by
  refine (Observed.partly.foldlM (fun rest (s : Network × Nat) =>
    (∀ p ∈ rest, p ∈ Optimize.passes mode (net.protectedIds true)) ∧ Prunes net s.1 ∧ s.1.Balanced)
    (fun p rest s hs => ?_) _ (net, 0) ⟨fun _ h => h, .refl net, hb⟩).mono fun r hr => hr.2
  obtain ⟨hps, hn, hbs⟩ := hs
  refine .bind (.lift (h.pass hm (hps p List.mem_cons_self) hn hbs)) fun r hr => ?_
  exact .bind (.tell (P := fun _ => True) trivial) fun _ _ =>
    .pure ⟨(List.forall_mem_cons.mp hps).2, hr⟩

theorem Tight.optimize (h : net.Tight) (hm : mode.allPasses = false) (hb : net.Balanced) :
    (net.optimize mode).Ensures fun r => ∃ net₁, Prunes net net₁ ∧ r.1 = net₁.fitAllThresholds := by
  refine .bind (Observed.partly.run_of_exhausted
    (fun s : Network × Nat => Prunes net s.1 ∧ s.1.Balanced)
    (fun r : Network × Nat => Prunes net r.1 ∧ r.1.Balanced) (fun s hs => ?_) .throw ⟨.refl net, hb⟩)
    fun r hr => .pure ⟨r.1, hr.1, rfl⟩
  refine .bind ((h.prunes hs.1).round hm hs.2) fun r hr => .pure ?_
  have hboth := And.intro (hs.1.trans hr.1) hr.2
  split
  · exact hboth
  · exact hboth

/-- Removing dead ends leaves right counts right. -/
theorem Prunes.settled (h : Prunes net net') (hs : net.Settled) (hl : net.LeavesSet) (hstd : net.Standard)
    (hstd' : net'.fitAllThresholds.Standard) (hb : net'.fitAllThresholds.Balanced) :
    net'.fitAllThresholds.Settled ∧ net'.fitAllThresholds.LeavesSet := by
  have hsame : ∀ c k', net'.fitAllThresholds.get? c = some k' → ∃ k, net.get? c = some k ∧
      k'.op = k.op ∧ k'.inputs = k.inputs ∧ k'.count = k.count := by
    intro c k' hk'
    rw [get?_fitAllThresholds, Option.map_eq_some_iff] at hk'
    obtain ⟨k₁, hk₁, rfl⟩ := hk'
    obtain ⟨k, hk, he, -⟩ := h.old c k₁ hk₁
    rw [Component.op_fitThresholds, Component.inputs_fitThresholds, he]
    refine ⟨k, hk, rfl, rfl, ?_⟩
    unfold Component.fitThresholds
    split <;> rfl
  have hvalue : ∀ c, net'.fitAllThresholds.contains c → net'.fitAllThresholds.valueAt c = net.valueAt c := by
    intro c hc
    obtain ⟨k', hk'⟩ := contains_iff.mp hc
    obtain ⟨k, hk, hop, hin, hcount⟩ := hsame c k' hk'
    have hk₁ := hstd c k hk
    have hk₁' := hstd' c k' hk'
    rw [valueAt_of_get? hk, valueAt_of_get? hk', Component.value, Component.value, hk₁.reqTrue, hk₁.sign,
      hk₁'.reqTrue, hk₁'.sign, hop, hin, hcount]
  refine ⟨fun c k' hk' hcase => ?_, fun c k' hk' hi => ?_⟩
  · obtain ⟨k, hk, hop, hin, hcount⟩ := hsame c k' hk'
    rw [Component.isGate, hop, hin] at hcase
    rw [hcount, hin, hs c k hk hcase]
    refine congrArg Nat.cast (List.countP_congr fun a ha => ?_)
    rw [hvalue a (hb.contains_source (b := c) (by rw [inputsOf_of_get? hk', hin]; exact ha))]
  · obtain ⟨k, hk, -, hin, hcount⟩ := hsame c k' hk'
    rw [hcount]
    exact hl c k hk (hin ▸ hi)

end Tight

/-- What the optimizer leaves of right counts: whatever is no gate keeps its count, and gates are right
again once they are counted anew, which finds no other count anywhere else. Where it has only dead ends to
take away, all counts are right as they are. -/
theorem recount_optimize (net : Network) (mode : Optimize.Mode) (hb : net.Balanced)
    (ha : net.Acyclic) (hs : net.Settled) (hstd : net.Standard) (hn : net.Narrow)
    (hl : net.LeavesSet) (hp : net.PartsPlayed) :
    ∃ net' n net'', (net.optimize mode).listen.1 = .ok (net', n) ∧
      net'.recount net'.sinks false = .ok net'' ∧ Recounts net' net'' ∧ net''.Settled ∧
      (∀ c op, net'.op? c = some op → op.isGate = false →
        net'.countAt c = net.countAt c ∧ net''.countAt c = net.countAt c) ∧
      net''.recount net''.sinks true = .ok net'' ∧
      (mode.allPasses = false → net.Tight →
        net'.Settled ∧ net'.recount net'.sinks true = .ok net') := by
  obtain ⟨⟨net', n⟩, hopt, h, hand⟩ := optimize_yields mode hb ha hp #[]
  have hstd' := h.standard hstd hand
  obtain ⟨net'', hre, hr⟩ := recount_yields h.balanced h.acyclic (h.countable hs hn hl)
    fun c hc => contains_of_mem_sinks hc
  have hs'' := h.settled_recounted hr hs hstd hstd' hn
  have hl'' : net''.LeavesSet := by
    intro c k'' hk'' hi
    obtain ⟨m, hk'⟩ := hr.recounts.symm.get? hk''
    have hc := contains_of_get? hk'
    obtain ⟨hc0, hsrc⟩ := h.source hc (by rw [inputsOf_of_get? hk']; exact hi)
    obtain ⟨k, hk⟩ := contains_iff.mp hc0
    rw [← countAt_of_get? hk'', h.countAt_of_source hr hs hstd hc (by rw [inputsOf_of_get? hk']; exact hi),
      countAt_of_get? hk]
    exact hs.count_ne_unset hl hk
  refine ⟨net', n, net'', hopt, hre, hr.recounts, hs'', fun c op hop hg => ⟨?_, ?_⟩, ?_,
    fun hm htight => ?_⟩
  · exact countAt_of_bare? (h.bare? (h.op?_of_plain hop hg) hg (contains_of_op? hop))
  · exact h.countAt_of_plain hr hs hstd hstd' hn hop hg
  · exact recount_eq hs'' hl'' (hr.recounts.balanced h.balanced)
      (hr.recounts.narrow (h.narrows hn)) (fun c hc => contains_of_mem_sinks hc) true
  · obtain ⟨net₁, hprunes, rfl⟩ := htight.optimize hm hb #[] _ hopt
    obtain ⟨hs', hl'⟩ := hprunes.settled hs hl hstd hstd' h.balanced
    exact ⟨hs', recount_eq hs' hl' h.balanced (h.narrows hn) (fun c hc => contains_of_mem_sinks hc) true⟩

/-! ## A gate with a wrong count -/

/-- All of `a`, `b` and `c` are true. The ANDs at 3 and 4 are twins, and so are those at 5 and 6 that read
both of them. -/
def twins : Network :=
  let prop (role : PropRole) (name : String) : Kind := .proposition { role, term := .atom name }
  { roles := ["hand"]
    slots := #[
      some { kind := prop .other "a", outputs := [3, 4], count := 1 },
      some { kind := prop .other "b", outputs := [3, 4], count := 1 },
      some { kind := prop .other "c", outputs := [7], count := 1 },
      some { kind := .and, inputs := [0, 1], outputs := [5, 6], count := 2, reqTrue := 2, reqFalse := 1 },
      some { kind := .and, inputs := [0, 1], outputs := [5, 6], count := 2, reqTrue := 2, reqFalse := 1 },
      some { kind := .and, inputs := [3, 4], outputs := [7], count := 2, reqTrue := 2, reqFalse := 1 },
      some { kind := .and, inputs := [3, 4], outputs := [7], count := 2, reqTrue := 2, reqFalse := 1 },
      some { kind := .or, inputs := [5, 6, 2], outputs := [8], count := 3 },
      some { kind := prop .terminal "over", inputs := [7], count := 1 }]
    terminal := 8 }

theorem twins_acyclic : twins.Acyclic := by
  have ranked : twins.Ranked fun c => c := by decide
  exact ranked.acyclic

/-- When the twins are merged, the remaining AND above them counts 1 and still needs 2, so it reads as
false just when it loses its own edge to the OR. The OR keeps the count 3 with two inputs left. -/
theorem optimize_twins_unsettled : twins.Balanced ∧ twins.Acyclic ∧ twins.Settled ∧
    twins.Standard ∧ twins.Narrow ∧ twins.LeavesSet ∧ twins.PartsPlayed ∧
    ∃ net' n, (twins.optimize { once := true }).listen.1 = .ok (net', n) ∧ ¬ net'.Settled ∧
      net'.recount net'.sinks true = .error (.compile (.countMismatch 7 "Or" 3 2)) := by
  refine ⟨by decide, twins_acyclic, by decide, by decide, by decide, by decide, by decide, ?_⟩
  have hrun : ((twins.optimize { once := true }).listen.1.toOption.map fun r =>
      decide (¬ r.1.Settled ∧
        r.1.recount r.1.sinks true = .error (.compile (.countMismatch 7 "Or" 3 2)))) = some true := by
    decide +kernel
  cases hopt : (twins.optimize { once := true }).listen.1 with
  | error e =>
    rw [hopt] at hrun
    cases hrun
  | ok r =>
    rw [hopt] at hrun
    have hview := of_decide_eq_true (Option.some.inj hrun)
    exact ⟨r.1, r.2, rfl, hview.1, hview.2⟩

/-- The OR at 3 is a dead end, and there is nothing else to take away. -/
def spare : Network :=
  let prop (role : PropRole) (name : String) : Kind := .proposition { role, term := .atom name }
  { roles := ["hand"]
    slots := #[
      some { kind := prop .other "a", outputs := [2, 3], count := 1 },
      some { kind := prop .other "b", outputs := [2], count := 1 },
      some { kind := .and, inputs := [0, 1], outputs := [4], count := 2, reqTrue := 2, reqFalse := 1 },
      some { kind := .or, inputs := [0], count := 1 },
      some { kind := prop .terminal "over", inputs := [2], count := 1 }]
    terminal := 4 }

theorem spare_tight : spare.Tight where
  keys := (shareGates_eq_zero_iff.mp (by decide +kernel : spare.shareGates = .ok (spare, 0))).2
  edges := forall_components.mpr (by decide)
  passing := forall_components.mpr (by decide)

theorem recount_optimize_twins : twins.Settled ∧
    (∃ net' n net'', (twins.optimize { once := true }).listen.1 = .ok (net', n) ∧
      net'.recount net'.sinks false = .ok net'' ∧ net''.Settled ∧
      net''.recount net''.sinks true = .ok net'') ∧
    ∃ net' n, (spare.optimize {}).listen.1 = .ok (net', n) ∧ net'.recount net'.sinks true = .ok net' := by
  obtain ⟨net', n, net'', hopt, hre, -, hs, -, heq, -⟩ := recount_optimize twins { once := true }
    (by decide) twins_acyclic (by decide) (by decide) (by decide) (by decide) (by decide)
  have hranked : spare.Ranked fun c => c := by decide
  obtain ⟨net₁, n₁, -, hopt₁, -, -, -, -, -, htight⟩ := recount_optimize spare {}
    (by decide) hranked.acyclic (by decide) (by decide) (by decide) (by decide) (by decide)
  exact ⟨by decide, ⟨net', n, net'', hopt, hre, hs, heq⟩, net₁, n₁, hopt₁, (htight rfl spare_tight).2⟩

end Network

end GameNet
