import GameNet.Proofs.Variants.Goals
import GameNet.Proofs.Variants.Split

/-!
The parts of a split, with goals or without, as networks that can be played.

Once the goals are stripped, gates may have stale counts while bases are fixed, so a part need not answer
like the whole.
-/

namespace GameNet.Network

open List

/-! ## Folding bases whatever the counts are -/

section Fold

variable {net net' : Network} {b : CompId} {v : Bool}

theorem Trimming.setBase (h : Trimming net) (hb : b ∈ net.bases) (hr : Recounts net net')
    (hset : net'.countAt b = countOf v)
    (hsame : ∀ d, d ≠ b → net.inputsOf d = [] → net'.countAt d = net.countAt d) : Trimming net' where
  formed := h.formed.recounts hr
  seeded := by
    have hbase : net.isRole b .base := (h.formed.base b hb).1
    refine ⟨fun c hc => ?_, fun i hi => ?_, fun c hop hi => ?_⟩
    · rw [field_of_parts Network.bases hr.parts] at hc
      by_cases hcb : c = b
      · rw [hcb, hset]
        cases v
        · exact .inl rfl
        · exact .inr rfl
      · rw [hsame c hcb (h.formed.base c hc).2]
        exact h.seeded.base c hc
    · rw [isRole_of_kind? (hr.kind? i)] at hi
      have hib : i ≠ b := by
        rintro rfl
        cases isRole_unique hi hbase
      rw [hsame i hib (h.formed.input i hi)]
      exact h.seeded.input i hi
    · rw [hr.op?] at hop
      rw [hr.inputsOf] at hi
      have hcb : c ≠ b := by
        rintro rfl
        rw [op?_of_isRole hbase] at hop
        cases hop
      rw [hsame c hcb hi]
      exact h.seeded.constant c hop hi
  ended := fun l hl => by
    rw [field_of_parts Network.legals hr.parts] at hl
    rw [hr.outputsOf]
    exact h.ended l hl
  narrow := hr.narrow h.narrow

theorem Trimming.foldBase (h : Trimming net) (hb : b ∈ net.bases) (v : Bool) :
    (net.foldConstant b v).Ensures fun r => Trimming r.1 ∧ r.1.parts = net.parts := by
  obtain ⟨hrole, hi⟩ := h.formed.base b hb
  obtain ⟨k, hk⟩ := contains_iff.mp (contains_of_isRole hrole)
  have hnil : k.inputs = [] := (inputsOf_of_get? hk).symm.trans hi
  have hop : k.op = .proposition := op_of_get? hk (op?_of_isRole hrole)
  have hg : k.isGate = false := by rw [Component.isGate, hop]; rfl
  cases hp : net.propagate b v with
  | error e =>
    unfold foldConstant
    refine .bind (.lift (P := (· = k)) fun k' hk' => ?_) fun k' hk' => ?_
    · rw [get_of_get? hk] at hk'
      exact (Except.ok.inj hk').symm
    subst hk'
    simp only [hnil, hg, isEmpty_nil, Bool.not_true, Bool.false_eq_true, if_false]
    refine .bind (P := fun _ => False) (.lift fun r hr => ?_) fun _ hno => hno.elim
    rw [hp] at hr
    cases hr
  | ok r =>
    obtain ⟨lit, traffic⟩ := r
    obtain ⟨hrec, hset, hsame⟩ := propagate_ensures h.formed.balanced h.formed.acyclic _ hp
    have hlit : Trimming lit := h.setBase hb hrec hset hsame
    obtain ⟨n, hk'⟩ := hrec.get? hk
    have hvalue : (k.counting n).value = v :=
      hlit.value_of_count hk' hg ((countAt_of_get? hk').symm.trans hset)
    have hfirst : k.hasRole .input → v = false := fun hinput => by
      cases isRole_unique ((isRole_of_get? hk).trans hinput) hrole
    refine (foldConstant_trimmed_of_propagate hk hnil hg hp hrec hlit.trimmable hfirst).ensures.mono
      fun r ht => ⟨(hlit.trimmed_at hk' hnil ht hvalue).1, ht.parts.trans hrec.parts⟩

theorem Trimming.foldBases (h : Trimming net) {bs : List CompId} (hbs : ∀ b ∈ bs, b ∈ net.bases)
    (v : Bool) : (net.foldConstants bs v).Ensures fun cur => Trimming cur ∧ cur.parts = net.parts := by
  refine (Observed.partly.foldlM (fun rest cur => (Trimming cur ∧ cur.parts = net.parts) ∧
    ∀ b ∈ rest, b ∈ net.bases) (fun b rest cur hcur => ?_) bs net ⟨⟨h, rfl⟩, hbs⟩).mono
    fun cur hcur => hcur.1
  obtain ⟨⟨htrim, hparts⟩, hrest⟩ := hcur
  have hb : b ∈ cur.bases := by
    rw [field_of_parts Network.bases hparts]
    exact hrest b mem_cons_self
  refine .bind (htrim.foldBase hb v) fun r hr => .pure ?_
  exact ⟨⟨hr.1, hr.2.trans hparts⟩, (forall_mem_cons.mp hrest).2⟩

end Fold

/-! ## Parts -/

/-- A network that can take a seat in a machine for the states of `net`: it has the same bases, and it is
the one for the states in which `b` is on. -/
structure Seat (net : Network) (b : CompId) (part : Network) : Prop where
  finished : part.Finished
  bases : part.bases = net.bases
  start : part.initialState = net.initialState
  fixedBase : part.fixedBase = some b

theorem PartOf.seat {net part : Network} {controls : List CompId} {b : CompId}
    (h : PartOf net controls b part) : Seat net b part :=
  ⟨h.plays.finished, h.plays.bases, h.plays.start, h.fixedBase⟩

section Parts

variable {net : Network} {b : CompId}

theorem Trimming.seat (h : Trimming net) (hb : b ∈ net.bases) {others : List CompId}
    (hothers : ∀ b' ∈ others, b' ∈ net.bases) (opts : Options) :
    (do
      let net ← net.foldConstants [b] true
      let net ← net.foldConstants others false
      let net := { net with fixedBase := some b }
      let (net, _) ← net.optimize { allPasses := true }
      let net ← if 0 < opts.maxFanIn then do pure (← net.capFanIn opts.maxFanIn).1 else pure net
      let (net, _) ← net.optimize {}
      let net ← net.settle opts
      Observed.stage "split" net
      return net : Observed Network).Ensures (Seat net b) := by
  refine .bind (h.foldBases (fun b' hb' => mem_singleton.mp hb' ▸ hb) true) fun net₁ h₁ => ?_
  have hbases₁ := field_of_parts Network.bases h₁.2
  refine .bind (h₁.1.foldBases (fun b' hb' => hbases₁ ▸ hothers b' hb') false) fun net₂ h₂ => ?_
  have ht := h₂.1.reseat (some b) rfl fun _ hg => hg
  refine .bind (ht.formed.optimizeKeeping _).ensures fun r₃ h₃ => ?_
  obtain ⟨ht₃, -⟩ := ht.sound h₃.1 fun _ hc => hc
  -- nothing after this touches the lists of the network
  have hseat : ∀ {mid : Network}, mid.parts = r₃.1.parts → ∀ part,
      (∃ last, Later mid last ∧ last.parts = mid.parts ∧ Readied last part) → Seat net b part := by
    rintro mid hmid part ⟨last, -, hlast, hr⟩
    have hparts : last.parts = Network.parts { net with fixedBase := some b } := by
      rw [hlast, hmid, h₃.1.parts]
      exact congrArg (fun n : Network => { n with fixedBase := some b }) (h₂.2.trans h₁.2)
    have hbases := field_of_parts Network.bases hparts
    have hstart := field_of_parts Network.initialState hparts
    have hfixed := field_of_parts Network.fixedBase hparts
    refine ⟨hr.finished, ?_, ?_, ?_⟩
    · rw [hr.field Network.bases, hbases]
    · rw [hr.field Network.initialState, hstart]
    · rw [hr.field Network.fixedBase, hfixed]
  dsimp only
  split
  · refine .bind (.lift (capFanIn_ensures ht₃.formed.balanced ht₃.formed.acyclic opts.maxFanIn))
      fun r₄ h₄ => ?_
    obtain ⟨ht₄, -⟩ := ht₃.sound h₄.1 fun _ _ => trivial
    refine .bind (P := (· = r₄.1)) (.pure rfl) fun net₄ hnet₄ => ?_
    subst hnet₄
    exact (ht₄.ready opts).mono (hseat h₄.1.parts)
  · refine .bind (P := (· = r₃.1)) (.pure rfl) fun net₄ hnet₄ => ?_
    subst hnet₄
    exact (ht₃.ready opts).mono (hseat rfl)

theorem Finished.seat (h : net.Finished) {cb : ControlBases} (hsub : ∀ b ∈ cb.bases, b ∈ net.bases)
    {k : Nat} (hb : b ∈ cb.bases) (opts : Options) : (net.fixControl cb k b opts).Ensures (Seat net b) := by
  have hothers : ∀ b' ∈ (cb.bases.zipIdx.filter (·.2 ≠ k)).map (·.1), b' ∈ net.bases := by
    intro b' hb'
    obtain ⟨⟨b'', j⟩, hmem, rfl⟩ := mem_map.mp hb'
    exact hsub b'' (mem_of_getElem? (mem_zipIdx_iff_getElem?.mp (mem_of_mem_filter hmem)))
  unfold Network.fixControl
  cases cb.stripGoals with
  | true =>
    refine .bind h.toTrimming.stripGoals fun bare hbare => ?_
    obtain ⟨contains, htrim, -, -, hparts⟩ := hbare
    have hbases := field_of_parts Network.bases hparts
    have hstart := field_of_parts Network.initialState hparts
    refine (htrim.seat (hbases ▸ hsub b hb) (fun b' hb' => hbases ▸ hothers b' hb') opts).mono
      fun part hpart => ⟨hpart.finished, hpart.bases.trans hbases, hpart.start.trans hstart, hpart.fixedBase⟩
  | false =>
    refine .bind (P := (· = net)) (.pure rfl) fun net₀ hnet₀ => ?_
    subst hnet₀
    exact h.toTrimming.seat (hsub b hb) hothers opts

theorem Finished.seats (h : net.Finished) {cb : ControlBases} (hsub : ∀ b ∈ cb.bases, b ∈ net.bases)
    (opts : Options) : (net.split cb opts).Ensures (List.Forall₂ (Seat net) cb.bases) := by
  refine (Observed.partly.mapM (R := fun x => Seat net x.1) cb.bases.zipIdx fun x hx => ?_).mono
    fun nets hnets => ?_
  · exact h.seat hsub (mem_of_getElem? (mem_zipIdx_iff_getElem?.mp hx)) opts
  have hall : List.Forall₂ (Seat net) (cb.bases.zipIdx.map Prod.fst) nets :=
    forall₂_map_left_iff.mpr hnets
  rwa [zipIdx_map_fst] at hall

end Parts

end GameNet.Network
