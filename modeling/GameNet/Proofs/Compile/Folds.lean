import GameNet.Proofs.Compile.Initial
import GameNet.Proofs.Game.Trim

/-!
The stages that fold what never changes: listed constants, init, gates without inputs, and inputs that no
legal goes with. Then come bases that nothing reads.
-/

namespace GameNet

open List

/-! ## Constants that are driven -/

namespace Constants

open Network

def Stands (net : Network) (c : CompId) (inputs : List CompId) : Prop :=
  ∃ k, net.get? c = some k ∧ k.op = .constant ∧ k.inputs = inputs

def Aside (c : CompId) (inputs : List CompId) (s : State) : Prop :=
  Stands s.net c inputs ∧ ∀ x ∈ s.work, x.1 ≠ c

section Stands

variable {net : Network} {c d : CompId} {inputs : List CompId} {s : State}

section

variable (h : Stands net c inputs)
include h

theorem Stands.modify {f : Component → Component}
    (hf : d = c → ∀ k, (f k).op = k.op ∧ (f k).inputs = k.inputs) : Stands (net.modify d f) c inputs := by
  obtain ⟨k, hk, hop, hi⟩ := h
  by_cases hdc : c = d
  · obtain ⟨hop', hi'⟩ := hf hdc.symm k
    exact ⟨f k, by rw [get?_modify, if_pos hdc, hk]; rfl, hop'.trans hop, hi'.trans hi⟩
  · exact ⟨k, by rw [get?_modify, if_neg hdc, hk], hop, hi⟩

theorem Stands.recounts {net' : Network} (hr : Recounts net net') : Stands net' c inputs := by
  obtain ⟨k, hk, hop, hi⟩ := h
  obtain ⟨n, hk'⟩ := hr.get? hk
  exact ⟨k.counting n, hk', hop, hi⟩

theorem Stands.dropInputs (hd : d ≠ c) : Stands (Constants.dropInputs net d) c inputs := by
  unfold Constants.dropInputs
  generalize (net.get? d).elim [] (·.inputs) = is
  refine foldl_keeps (fun _ cur => Stands cur c inputs) (fun i is cur hcur => ?_) is _
    (h.modify fun hdc => absurd hdc hd)
  exact hcur.modify fun _ k => ⟨rfl, rfl⟩

theorem detach_stands (hd : d ≠ c) : (detach net d).Ensures fun r => Stands r.2 c inputs := by
  unfold detach
  refine .bind (P := fun _ => True) (fun _ _ => trivial) fun k _ => ?_
  have hmod := h.modify (d := d) (f := fun k => { k with outputs := [] }) fun hdc => absurd hdc hd
  split
  · exact .pure hmod
  · exact .pure hmod
  refine .pure ?_
  obtain ⟨k, hk, hop, hi⟩ := h
  exact ⟨k, by rw [get?_remove, if_neg (Ne.symm hd), hk], hop, hi⟩

end

theorem Aside.notify (h : Aside c inputs s) {o : CompId} {k : Component} (ho : o ≠ c) (v : Bool) :
    (Constants.notify s o k v).Ensures (Aside c inputs) := by
  have hpush : ∀ b, ∀ x ∈ (o, b) :: s.work, x.1 ≠ c := by
    intro b x hx
    rcases mem_cons.mp hx with rfl | hx
    · exact ho
    · exact h.2 x hx
  unfold Constants.notify
  split
  · exact .pure ⟨h.1.dropInputs ho, hpush true⟩
  · split
    · exact .pure ⟨h.1, hpush false⟩
    · exact .pure h
  · exact .pure ⟨h.1.dropInputs ho, hpush false⟩
  · refine .pure ⟨h.1.modify fun hoc => absurd hoc ho, ?_⟩
    dsimp only
    split
    · exact hpush true
    · exact h.2
  · exact .pure ⟨h.1, hpush _⟩
  · exact .pure h
  · refine .pure ⟨h.1, ?_⟩
    dsimp only
    split
    · exact h.2
    · exact hpush _
  · exact .throw

theorem Aside.cut (h : Aside c inputs s) (a : CompId) (v : Bool) (o : CompId) :
    (Constants.cut a v s o).Ensures (Aside c inputs) := by
  unfold Constants.cut
  cases hk : s.net.get? o with
  | none => exact .pure h
  | some k =>
    dsimp only
    split
    · by_cases ho : o = c
      · -- telling the constant itself fails
        subst ho
        obtain ⟨k', hk', hop, -⟩ := h.1
        rw [hk] at hk'
        cases hk'
        unfold Constants.notify
        have hop' : Component.op { k with inputs := k.inputs.erase a } = .constant := hop
        rw [hop']
        exact .throw
      · have hcut : Aside c inputs { s with
            net := s.net.modify o fun _ => { k with inputs := k.inputs.erase a } } :=
          ⟨h.1.modify fun hoc => absurd hoc ho, h.2⟩
        exact hcut.notify ho v
    · exact .pure h

theorem Aside.fold {a : CompId} {v : Bool} (h : Stands s.net c inputs) (ha : a ≠ c) :
    (Constants.fold s a v).Ensures (Aside c inputs) := by
  refine Checked.partly.run_of_exhausted (Aside c inputs) _ (fun s hs => ?_) .throw
    ⟨h, fun x hx => ?_⟩
  · unfold Constants.turn
    cases hw : s.work with
    | nil => exact .pure hs
    | cons x work =>
      obtain ⟨b, w⟩ := x
      have hb := hs.2 (b, w) (hw ▸ mem_cons_self)
      refine .bind (detach_stands hs.1 hb) fun r hr => ?_
      obtain ⟨outputs, net'⟩ := r
      refine .bind (Checked.partly.foldlM (fun _ => Aside c inputs)
        (fun o rest s hs => hs.cut b w o) outputs.reverse _ ⟨hr, fun x hx => ?_⟩) fun s' hs' => .pure hs'
      exact hs.2 x (hw ▸ mem_cons_of_mem _ hx)
  · rw [mem_singleton.mp hx]
    exact ha

theorem Aside.legalTurn (h : Aside c inputs s) (hne : inputs ≠ []) :
    (Constants.legalTurn s).Ensures (Guarantee.Reaches (Aside c inputs) (Aside c inputs)) := by
  unfold Constants.legalTurn
  cases hl : s.legals with
  | nil => exact .pure h
  | cons l legals =>
    refine .bind (.lift fun k hk => get?_of_get hk) fun k _ => ?_
    split
    · exact .bind (.tell (P := fun _ => True) trivial) fun _ _ => .pure h
    cases hfree : freeInput? s.net k with
    | none => exact .pure h
    | some i =>
      have hi : i ≠ c := by
        rintro rfl
        obtain ⟨-, hany⟩ := Option.filter_eq_some_iff.mp hfree
        obtain ⟨k', hk', -, hin⟩ := h.1
        rw [hk', Option.any_some, List.isEmpty_iff, hin] at hany
        exact hne hany
      refine .bind (.lift (propagate_recounts s.net i false)) fun r hr => ?_
      refine .bind (.lift (Aside.fold (h.1.recounts hr) hi)) fun s' hs' => .pure hs'

end Stands

end Constants

namespace Network

open Constants

section Driven

variable {net : Network} {c : CompId} {inputs : List CompId}

theorem foldConstant_stands (h : Stands net c inputs) (hne : inputs ≠ []) (a : CompId) (v : Bool) :
    (net.foldConstant a v).Ensures fun r => Stands r.1 c inputs := by
  unfold foldConstant
  refine .bind (.lift fun k hk => get?_of_get hk) fun k hk => ?_
  by_cases hi : k.inputs = []
  · have ha : a ≠ c := by
      rintro rfl
      obtain ⟨k', hk', -, hin⟩ := h
      rw [hk] at hk'
      cases hk'
      exact hne (hin.symm.trans hi)
    have hfold : ∀ net' : Network, Stands net' c inputs → (do
        let s ← Constants.fold { net := net', work := [] } a v
        let s ← Loop.run (net'.extent + 1) Constants.legalTurn s
        return (s.net, s.folded) : Observed (Network × Nat)).Ensures fun r => Stands r.1 c inputs := by
      intro net' h'
      refine .bind (.lift (Aside.fold h' ha)) fun s hs => ?_
      exact .bind (Observed.partly.run_of_exhausted (Aside c inputs) _ (fun s hs => hs.legalTurn hne)
        .throw hs) fun s hs => .pure hs.1
    simp only [hi, isEmpty_nil, Bool.not_true, Bool.false_eq_true, if_false]
    split
    · split
      · exact hfold net h
      · exact .bind (P := fun _ => False) .throw fun _ h => h.elim
    · refine .bind (.lift (propagate_recounts net a v)) fun r hr => ?_
      exact hfold r.1 (h.recounts hr)
  · rw [if_pos (by simpa using hi)]
    exact .bind (P := fun _ => False) .throw fun _ h => h.elim

theorem foldConstant_driven (h : ∀ k, net.get? c = some k → k.inputs ≠ []) (v : Bool) :
    (net.foldConstant c v).Ensures fun _ => False := by
  unfold foldConstant
  refine .bind (.lift fun k hk => get?_of_get hk) fun k hk => ?_
  rw [if_pos (by simpa using h k hk)]
  exact .bind (P := fun _ => False) .throw fun _ h => h.elim

theorem foldListedConstants_undriven (net : Network) :
    net.foldListedConstants.Ensures fun _ => ∀ c, net.op? c = some .constant → net.inputsOf c = [] := by
  have hfail : ∀ c k, net.get? c = some k → k.op = .constant → k.inputs ≠ [] →
      net.foldListedConstants.Ensures fun _ => False := by
    intro c k hk hop hi
    unfold foldListedConstants
    refine (Observed.partly.foldlM
      (fun rest cur => c ∈ rest ∧ Stands cur c k.inputs) (fun a rest cur hcur => ?_) _ net
      ⟨?_, k, hk, hop, rfl⟩).mono fun _ h => absurd h.1 not_mem_nil
    · obtain ⟨hmem, hstands⟩ := hcur
      rcases mem_cons.mp hmem with rfl | hmem
      · obtain ⟨k', hk', -, hin⟩ := hstands
        have hfed : ∀ k, cur.get? c = some k → k.inputs ≠ [] := fun k hk => by
          rw [hk'] at hk
          cases hk
          exact hin ▸ hi
        rw [hk']
        exact .bind (foldConstant_driven hfed _) fun _ h => h.elim
      · cases hk' : cur.get? a with
        | none => exact .pure ⟨hmem, hstands⟩
        | some k' =>
          exact .bind (foldConstant_stands hstands hi a _) fun r hr => .pure ⟨hmem, hr⟩
    · exact mem_map.mpr ⟨(c, k), mem_filter.mpr ⟨mem_components.mpr hk, decide_eq_true hop⟩, rfl⟩
  intro events r hr c hop
  by_contra hi
  obtain ⟨k, hk⟩ := contains_iff.mp (contains_of_op? hop)
  rw [op?_of_get? hk, Option.some.injEq] at hop
  rw [inputsOf_of_get? hk] at hi
  exact hfail c k hk hop hi events r hr

end Driven

/-! ## Stages -/

structure Trimming (net : Network) : Prop where
  formed : net.Formed
  seeded : net.Seeded
  ended : net.Ended
  narrow : net.Narrow

structure Later (net net' : Network) : Prop where
  keeps : Keeps net net'
  roles : net'.roles = net.roles
  players : net'.players = net.players
  terminal : net'.terminal = net.terminal
  bases : net'.bases.Sublist net.bases
  start : ∀ f : CompId → Bool, net.initialState = net.bases.map f →
    net'.initialState = net'.bases.map f
  heads : ∀ c, net'.IsHead c → net.IsHead c
  answers : ∀ P ref, net.Answers P ref → net'.Answers P ref

section Stages

variable {net net' net'' : Network} {c : CompId} {k : Component} {v : Bool} {keep : CompId → Prop}

theorem Later.refl (net : Network) : Later net net :=
  ⟨.refl net, rfl, rfl, rfl, .refl _, fun _ h => h, fun _ h => h, fun _ _ h => h⟩

theorem Later.trans (h : Later net net') (h' : Later net' net'') : Later net net'' where
  keeps := h.keeps.trans h'.keeps
  roles := h'.roles.trans h.roles
  players := h'.players.trans h.players
  terminal := h'.terminal.trans h.terminal
  bases := h'.bases.trans h.bases
  start f hf := h'.start f (h.start f hf)
  heads c hc := h.heads c (h'.heads c hc)
  answers P ref ha := h'.answers P ref (h.answers P ref ha)

theorem Later.of_parts (hk : Keeps net net') (hparts : net'.parts = net.parts)
    (hheads : ∀ c, net'.IsHead c → net.IsHead c)
    (ha : ∀ P ref, net.Answers P ref → net'.Answers P ref) : Later net net' where
  keeps := hk
  roles := field_of_parts Network.roles hparts
  players := field_of_parts Network.players hparts
  terminal := field_of_parts Network.terminal hparts
  bases := by rw [field_of_parts Network.bases hparts]
  start f hf := by
    rw [field_of_parts Network.initialState hparts, hf, field_of_parts Network.bases hparts]
  heads := hheads
  answers := ha

theorem Later.legals (h : Later net net') : net'.legals = net.legals := by
  rw [Network.legals, Network.legals, h.players]

theorem Later.supplied_of_parts (h : Later net net') (hparts : net'.parts = net.parts)
    (hs : net.Supplied) : net'.Supplied := hs.of_parts h.heads h.keeps.exists_kind hparts

theorem Later.width (h : Later net net') (hn : net.bases.Nodup)
    (hw : net.initialState.length = net.bases.length) : net'.initialState.length = net'.bases.length := by
  have hbits : net.initialState =
      net.bases.map fun b => net.initialState.getD (net.bases.idxOf b) false := by
    refine ext_getElem (by rw [length_map, hw]) fun i hi hi' => ?_
    rw [getElem_map, hn.idxOf_getElem, getD_eq_getElem?_getD, getElem?_eq_getElem hi, Option.getD_some]
  rw [h.start _ hbits, length_map]

theorem Later.unlit (h : Later net net') (hf : net.Formed) (hu : net.Unlit) : net'.Unlit := by
  intro b hb
  have hb₀ := h.bases.subset hb
  cases hlive : net'.contains b with
  | true =>
    rw [h.keeps.countAt (op?_of_isRole (hf.base b hb₀).1) rfl hlive]
    exact hu b hb₀
  | false => rw [countAt, get?_eq_none_iff.mpr hlive, Option.elim_none]

theorem Keeps.seeded (h : Keeps net net') (hs : net.Seeded) (hf : net.Formed) (hn : net.Narrow)
    (hbases : ∀ b ∈ net'.bases, b ∈ net.bases ∧ net'.contains b) : net'.Seeded := by
  refine ⟨fun b hb => ?_, fun i hi => ?_, fun c hop hi => ?_⟩
  · obtain ⟨hb, hlive⟩ := hbases b hb
    have hrole := (hf.base b hb).1
    rw [h.countAt (op?_of_isRole hrole) rfl hlive]
    exact hs.base b hb
  · have hrole := h.isRole_of hi
    rw [h.countAt (op?_of_isRole hrole) rfl (contains_of_isRole hi), hs.input i hrole]
  obtain ⟨k', hk'⟩ := contains_iff.mp (contains_of_op? hop)
  rw [op?_of_get? hk', Option.some.injEq] at hop
  obtain ⟨k, hk, hstays⟩ := h.exists_old hk' (.inr (by rw [Component.isGate, hop]; rfl))
  have hop₀ : k.op = .constant := by rw [← hop, Component.op, Component.op, hstays.kind]
  have hnil : net.inputsOf c = [] := (inputsOf_of_get? hk).trans ((hn c k hk).2 hop₀)
  have hop₁ : net.op? c = some .constant := by rw [op?_of_get? hk, hop₀]
  rw [h.countAt hop₁ rfl (contains_of_get? hk')]
  exact hs.constant c hop₁ hnil

theorem Sound.narrow_keeps (h : Sound keep net net') (hn : net.Narrow) : net'.Narrow := by
  intro c k' hk'
  have hc' := contains_of_get? hk'
  by_cases hc : net.contains c
  · obtain ⟨k, hk⟩ := contains_iff.mp hc
    have hop : k'.op = k.op := by
      have := h.op? hc hc'
      rwa [op?_of_get? hk, op?_of_get? hk', Option.some.injEq] at this
    refine ⟨fun hand hor => ?_, fun hconst => ?_⟩
    · rw [hop] at hand hor
      have := h.narrow c k.op (op?_of_get? hk) hand hor
        (by rw [inputsOf_of_get? hk]; exact (hn c k hk).1 hand hor)
      rwa [inputsOf_of_get? hk'] at this
    · rw [hop] at hconst
      have := (h.leaf c hc hc' ((inputsOf_of_get? hk).trans ((hn c k hk).2 hconst))).1
      rwa [inputsOf_of_get? hk'] at this
  · obtain ⟨-, hgate, -⟩ := h.fresh c hc' (Bool.eq_false_iff.mpr hc)
    rw [op?_of_get? hk'] at hgate
    refine ⟨fun hand hor => ?_, fun hconst => ?_⟩
    · exact hgate.elim (fun h => absurd (Option.some.inj h) hand) fun h => absurd (Option.some.inj h) hor
    · rw [hconst] at hgate
      exact hgate.elim (fun h => by cases h) fun h => by cases h

section

variable (h : Trimming net)
include h

theorem Trimming.sound (hs : Sound keep net net')
    (hkeep : ∀ c ∈ net.protectedIds true, keep c) : Trimming net' ∧ Later net net' := by
  have hf := h.formed.sound hs hkeep
  have hbases := field_of_parts Network.bases hs.parts
  have hlegals := field_of_parts Network.legals hs.parts
  refine ⟨⟨hf, hs.keepsAll.seeded h.seeded h.formed h.narrow fun b hb => ?_,
    hs.keepsAll.ended h.ended h.formed.toCast fun l hl => hlegals ▸ hl, hs.narrow_keeps h.narrow⟩,
    .of_parts hs.keepsAll hs.parts (fun _ => hs.isHead) fun P ref ha => ha.sound h.formed hs hkeep⟩
  exact ⟨hbases ▸ hb, contains_of_isRole (hf.base b hb).1⟩

theorem Trimming.trimmable : Trimmable False net where
  balanced := h.formed.balanced
  acyclic := h.formed.acyclic
  narrow := h.narrow
  bits := False.elim
  counted := False.elim
  input i k hk hr := by
    have := h.formed.input i ((isRole_of_get? hk).trans hr)
    rwa [inputsOf_of_get? hk] at this
  paired l i k hl hk := by
    rw [← isRole_of_get? hk]
    exact h.formed.inputs i (h.formed.paired l i hl).2.1
  zero := .inr fun i k hk hr => by
    have := h.seeded.input i ((isRole_of_get? hk).trans hr)
    rwa [countAt_of_get? hk] at this

section

variable (hk : net.get? c = some k) (hnil : k.inputs = []) (ht : Trimmed net c v net')
  (hvalue : k.value = v)
include hk hnil ht hvalue

/-- A component has been folded at its value. What is answered in positions where it has that value stays. -/
theorem Trimming.trimmed_at :
    Trimming net' ∧ ∀ P ref, net.Answers P ref → (∀ p, P p → net.source p c = v) → net'.Answers P ref := by
  rw [← valueAt_of_get? hk] at hvalue
  have hf := h.formed.trimmed ht
  have hkeeps := ht.keepsAll h.formed.balanced
  have hbases := field_of_parts Network.bases ht.parts
  have hlegals := field_of_parts Network.legals ht.parts
  refine ⟨⟨hf, hkeeps.seeded h.seeded h.formed h.narrow fun b hb => ?_,
    hkeeps.ended h.ended h.formed.toCast fun l hl => hlegals ▸ hl, ht.narrow h.narrow⟩,
    fun P ref ha hsrc => ?_⟩
  · exact ⟨hbases ▸ hb, contains_of_isRole (hf.base b hb).1⟩
  · exact ha.trimmed h.formed ht h.seeded.input (contains_of_get? hk)
      ((inputsOf_of_get? hk).trans hnil) (fun _ => hvalue) fun p hp _ => hsrc p hp

theorem Trimming.trimmed (hsrc : ∀ P ref, net.Answers P ref → ∀ p, P p → net.source p c = net.valueAt c) :
    Trimming net' ∧ Later net net' := by
  obtain ⟨htrim, hanswers⟩ := h.trimmed_at hk hnil ht hvalue
  refine ⟨htrim, .of_parts (ht.keepsAll h.formed.balanced) ht.parts
    (fun _ => ht.isHead h.formed h.narrow) fun P ref ha => ?_⟩
  refine hanswers P ref ha fun p hp => (hsrc P ref ha p hp).trans ?_
  rw [valueAt_of_get? hk, hvalue]

end

theorem Trimming.value_of_count (hk : net.get? c = some k) (hg : k.isGate = false)
    (hcount : k.count = countOf v) : k.value = v := by
  rw [value_of_shaped (h.formed.shaped c k hk) hg, hcount]
  cases v <;> rfl

theorem Trimming.fold (hk : net.get? c = some k) (hnil : k.inputs = []) (hop : k.op ≠ .transition)
    (hg : k.isGate = false) (hcount : k.count = countOf v) (hfirst : k.hasRole .input → v = false)
    (hsrc : ∀ P ref, net.Answers P ref → ∀ p, P p → net.source p c = net.valueAt c) :
    (net.foldConstant c v).Yields fun r => Trimmed net c v r.1 ∧ Trimming r.1 ∧ Later net r.1 :=
  (foldConstant_trimmed h.trimmable hk hnil hop (.inr ⟨hg, hcount⟩) hfirst).mono fun _ ht =>
    ⟨ht, h.trimmed hk hnil ht (h.value_of_count hk hg hcount) hsrc⟩

end

theorem Formed.source_eq (h : net.Formed) (hb : ¬ net.isRole c .base)
    (hi : ¬ net.isRole c .input) (p : Position) : net.source p c = net.valueAt c :=
  source_of_other p (fun hc => hb (h.base c hc).1) hi

theorem Trimming.drops {gone : CompId → Prop} (h : Trimming net) (hd : Drops gone net net')
    (hroles : net'.roles = net.roles) (hplayers : net'.players = net.players)
    (hterminal : net'.terminal = net.terminal) (hinit : ∀ i, net'.init = some i → net.init = some i)
    (hbases : net'.bases.Sublist net.bases) (hgone : ∀ b ∈ net.bases, b ∉ net'.bases → gone b)
    (hdriven : List.Forall₂ (fun b t => net.kind? t = some (.transition (some b)))
      net'.bases net'.transitions) (hinputs : ∀ i ∈ net'.inputs, i ∈ net.inputs)
    (hpaired : ∀ l i, net.pairedInput? l = some i → i ∈ net'.inputs)
    (hstart : ∀ f : CompId → Bool, net.initialState = net.bases.map f → net'.initialState = net'.bases.map f)
    (hlive : ∀ c ∈ net'.protectedIds true, net'.contains c) : Trimming net' ∧ Later net net' := by
  have hkeeps := hd.keepsAll
  have hlegals : net'.legals = net.legals := by rw [legals, legals, hplayers]
  have hcast := h.formed.toCast.keeps hkeeps hplayers hterminal hinit hbases hdriven hinputs hpaired hlive
  have hnot : ∀ {c : CompId}, net'.contains c → ¬ gone c := by
    intro c hc hgone
    rw [get?_eq_none_iff.mp (hd.missing c hgone)] at hc
    cases hc
  have hf : net'.Formed := ⟨hcast, hd.balanced h.formed.balanced, hd.acyclic h.formed.acyclic,
    fun c k hk => h.formed.shaped c k (hd.get?_of_some hk)⟩
  refine ⟨⟨hf, hkeeps.seeded h.seeded h.formed h.narrow fun b hb => ?_,
    hkeeps.ended h.ended h.formed.toCast fun l hl => hlegals ▸ hl,
    fun c k hk => h.narrow c k (hd.get?_of_some hk)⟩,
    ⟨hkeeps, hroles, hplayers, hterminal, hbases, hstart, fun _ => hd.isHead,
      fun P ref ha => ha.drops h.formed hd ?_ ?_⟩⟩
  · exact ⟨hbases.subset hb, contains_of_isRole (hcast.base b hb).1⟩
  · intro l hl
    exact hnot (contains_of_isRole (hcast.legal l (hlegals ▸ hl)).1)
  · intro c hc
    refine ⟨fun hb => hbases.subset hb, fun hb => ?_⟩
    by_contra hb'
    exact hnot hc (hgone c hb hb')

end Stages

/-! ## Constants and init -/

section Constants

variable {net : Network} {k : Component} {c : CompId}

theorem Trimming.foldListedConstants (h : Trimming net) : net.foldListedConstants.Ensures fun net' =>
    Trimming net' ∧ Later net net' ∧ net'.parts = net.parts := by
  unfold Network.foldListedConstants
  refine (Observed.partly.foldlM (fun rest cur => (∀ c ∈ rest, net.op? c = some .constant) ∧
    Trimming cur ∧ Later net cur ∧ cur.parts = net.parts) (fun c rest cur hcur => ?_) _ net
    ⟨fun c hc => ?_, h, .refl net, rfl⟩).mono fun net' h' => h'.2
  · obtain ⟨hrest, htrim, hlater, hparts⟩ := hcur
    have hrest' := (forall_mem_cons.mp hrest).2
    cases hk : cur.get? c with
    | none => exact .pure ⟨hrest', htrim, hlater, hparts⟩
    | some k =>
      have hc := hrest c mem_cons_self
      have hop : k.op = .constant := by
        have := op?_of_kind?_eq (hlater.keeps.kind? (contains_of_op? hc) (contains_of_get? hk))
        rwa [hc, op?_of_get? hk, Option.some.injEq] at this
      have hnil := (htrim.narrow c k hk).2 hop
      have hcount := htrim.seeded.constant c ((op?_of_get? hk).trans (congrArg some hop))
        ((inputsOf_of_get? hk).trans hnil)
      rw [countAt_of_get? hk] at hcount
      have hnorole : ∀ role, ¬ k.hasRole role := fun role hr => by
        have := Component.op_of_hasRole hr
        rw [hop] at this
        cases this
      refine .bind (htrim.fold hk hnil (by rw [hop]; decide) (by rw [Component.isGate, hop]; rfl) ?_
        (fun hr => absurd hr (hnorole _)) fun P ref ha p hp => ?_).ensures fun r hr => .pure ?_
      · rcases hcount with hn | hn <;> rw [hn] <;> rfl
      · refine htrim.formed.source_eq ?_ ?_ p
        · rw [isRole_of_get? hk]
          exact hnorole _
        · rw [isRole_of_get? hk]
          exact hnorole _
      · exact ⟨hrest', hr.2.1, hlater.trans hr.2.2, hr.1.parts.trans hparts⟩
  · obtain ⟨x, hx, rfl⟩ := mem_map.mp hc
    obtain ⟨hx, hop⟩ := mem_filter.mp hx
    rw [op?_of_get? (mem_components.mp hx)]
    exact congrArg some (of_decide_eq_true hop)

theorem op_of_get? {op : Op} (hk : net.get? c = some k) (hop : net.op? c = some op) : k.op = op := by
  rwa [op?_of_get? hk, Option.some.injEq] at hop

theorem dropComponents_yields (hk : net.get? c = some k) (hi : k.inputs = []) (ho : k.outputs = []) :
    (net.dropComponents [c]).Yields fun net' => Drops (· = c) net net' ∧ net'.parts = net.parts := by
  unfold dropComponents isolate
  rw [foldlM_cons]
  refine .bind (P := fun net' => Drops (· = c) net net' ∧ net'.parts = net.parts)
    (.bind (.bind_ok (get_of_get? hk) (.pure (P := (· = net.modify c fun k =>
      { k with inputs := [], outputs := [] })) ?_)) fun cur hcur => .pure ?_) fun net' h => .pure h
  · rw [hi, ho]
    rfl
  subst hcur
  refine ⟨⟨?_, ?_, fun d hd => ?_, ?_⟩, rfl⟩
  · simp only [capacity, remove, modify, Array.size_modify]
  · rintro d rfl
    rw [get?_remove, if_pos rfl]
  · rw [get?_remove, if_neg hd, get?_modify, if_neg hd]
  · rintro d rfl
    rw [inputsOf_of_get? hk, outputsOf_of_get? hk]
    exact ⟨hi, ho⟩

theorem Cast.not_mem_protectedIds (h : net.Cast) {role : PropRole}
    (hrole : net.isRole c role) (hplain : role = .input ∨ role = .init)
    (hin : c ∉ net.inputs) (hinit : net.init ≠ some c) : c ∉ net.protectedIds true := by
  have hother : ∀ {role' : PropRole}, role' ≠ .input → role' ≠ .init → ¬ net.isRole c role' = true := by
    intro role' h₁ h₂ hr
    rw [isRole_unique hr hrole] at h₁ h₂
    exact hplain.elim h₁ h₂
  intro hmem
  rcases mem_protectedIds.mp hmem with hb | hi | hi | hl | ⟨-, hg⟩ | ht | ht
  · exact hother (by decide) (by decide) (h.base c hb).1
  · exact hin hi
  · exact hinit hi
  · exact hother (by decide) (by decide) (h.legal c hl).1
  · exact hother (by decide) (by decide) (h.goal c hg)
  · have hop := h.op?_of_transition ht
    rw [op?_of_isRole hrole] at hop
    cases hop
  · exact hother (by decide) (by decide) (ht ▸ h.terminal)

theorem Trimming.dropped {net' : Network} {gone : CompId → Prop} (h : Trimming net)
    (hd : Drops gone net net') (hparts : net'.parts = net.parts)
    (hpart : ∀ c ∈ net.protectedIds true, ¬ gone c) : Trimming net' ∧ Later net net' := by
  have hbases := field_of_parts Network.bases hparts
  have hinputs := field_of_parts Network.inputs hparts
  refine h.drops hd (field_of_parts Network.roles hparts) (field_of_parts Network.players hparts)
    (field_of_parts Network.terminal hparts)
    (fun i hi => (field_of_parts Network.init hparts).symm.trans hi) (hbases ▸ .refl _)
    (fun b hb hb' => absurd (hbases ▸ hb) hb') ?_ (fun i hi => hinputs ▸ hi)
    (fun l i hl => hinputs ▸ (h.formed.paired l i hl).2.1) (fun f hf => ?_) fun c hc => ?_
  · rw [hbases, field_of_parts Network.transitions hparts]
    exact h.formed.driven
  · rw [field_of_parts Network.initialState hparts, hf, hbases]
  · rw [field_of_parts (fun net => net.protectedIds true) hparts] at hc
    rw [hd.contains (hpart c hc)]
    exact h.formed.partsPlayed.contains hc

theorem Trimmed.dropComponents {i : CompId} {v : Bool} {net' : Network} (h : Trimmed net i v net')
    (hk : net.get? i = some k) (hnil : k.inputs = []) (hop : k.op = .proposition) :
    (net'.dropComponents [i]).Yields fun net'' => Drops (· = i) net' net'' ∧ net''.parts = net'.parts := by
  obtain ⟨k', hk'⟩ := contains_iff.mp (h.kept i (.inl (by rw [op?_of_get? hk, hop])))
  obtain ⟨k₀, hk₀, -, hsub, -⟩ := h.old i k' hk'
  rw [hk] at hk₀
  cases hk₀
  rw [hnil, sublist_nil] at hsub
  exact dropComponents_yields hk' hsub ((outputsOf_of_get? hk').symm.trans h.quiet)

theorem Trimming.relist (h : Trimming net) (init : Option CompId) {inputs : List CompId}
    (hinit : ∀ i, init = some i → net.init = some i) (hsub : ∀ i ∈ inputs, i ∈ net.inputs)
    (hpaired : ∀ l i, net.pairedInput? l = some i → i ∈ inputs) :
    Trimming { net with init, inputs } ∧ Later net { net with init, inputs } := by
  have hd : Drops (fun _ => False) net { net with init, inputs } :=
    ⟨rfl, fun _ => False.elim, fun _ _ => rfl, fun _ => False.elim⟩
  refine h.drops hd rfl rfl rfl hinit (.refl _) (fun b hb hb' => absurd hb hb') h.formed.driven hsub
    hpaired (fun f hf => hf) fun c hc => h.formed.partsPlayed.contains (mem_protectedIds.mpr ?_)
  rcases mem_protectedIds.mp hc with hb | hi | hi | hrest
  · exact .inl hb
  · exact .inr (.inl (hsub c hi))
  · exact .inr (.inr (.inl (hinit c hi)))
  · exact .inr (.inr (.inr hrest))

theorem Trimming.foldInit (h : Trimming net) (hoff : ∀ i, net.init = some i → net.countAt i = 0) :
    net.foldInit.Ensures fun net' => Trimming net' ∧ Later net net' ∧ net'.init = none ∧
      (net.Supplied → net'.Supplied) := by
  unfold Network.foldInit
  cases hinit : net.init with
  | none => exact .pure ⟨h, .refl net, hinit, id⟩
  | some i =>
    have hrole := h.formed.init i hinit
    obtain ⟨k, hk⟩ := contains_iff.mp (contains_of_isRole hrole)
    have hop : k.op = .proposition := op_of_get? hk (op?_of_isRole hrole)
    have hcount : k.count = countOf false := (countAt_of_get? hk).symm.trans (hoff i hinit)
    obtain ⟨htrim, hlater⟩ := h.relist none (fun _ hi => by cases hi) (fun _ hi => hi) fun l i hl =>
      (h.formed.paired l i hl).2.1
    have hnone : Network.init { net with init := none } = none := rfl
    have hbases : Network.bases { net with init := none } = net.bases := rfl
    have hinputs : Network.inputs { net with init := none } = net.inputs := rfl
    have hk : Network.get? { net with init := none } i = some k := hk
    have hrole : Network.isRole { net with init := none } i .init = true := hrole
    dsimp only
    generalize { net with init := none } = base at htrim hlater hk hrole hnone hbases hinputs
    have hother : ∀ {role : PropRole}, role ≠ .init → ¬ base.isRole i role = true := fun hne hr =>
      hne (isRole_unique hr hrole)
    by_cases hnil : k.inputs = []
    · refine .bind (htrim.fold hk hnil (by rw [hop]; decide)
        (by rw [Component.isGate, hop]; rfl) hcount (fun hr => ?_) fun P ref _ p _ => ?_).ensures
        fun r hr => ?_
      · exact absurd ((isRole_of_get? hk).trans hr) (hother (by decide))
      · exact htrim.formed.source_eq (hother (by decide)) (hother (by decide)) p
      · obtain ⟨ht, htrim', hlater'⟩ := hr
        have hrole' := hlater'.keeps.isRole hrole (ht.kept i (.inl (op?_of_isRole hrole)))
        have hnone' : r.1.init = none := (field_of_parts Network.init ht.parts).trans hnone
        have hpart : i ∉ r.1.protectedIds true := by
          refine htrim'.formed.not_mem_protectedIds hrole' (.inr rfl) (fun hin => ?_) fun hi => ?_
          · cases isRole_unique hrole' (htrim'.formed.inputs i hin)
          · rw [hnone'] at hi
            cases hi
        refine (Observed.Yields.lift (ht.dropComponents hk hnil hop)).ensures.mono fun net' h' => ?_
        obtain ⟨htrim'', hlater''⟩ := htrim'.dropped h'.1 h'.2 fun c hc hci => hpart (hci ▸ hc)
        have hlater₀ := hlater.trans (hlater'.trans hlater'')
        have hparts := h'.2.trans ht.parts
        refine ⟨htrim'', hlater₀, (field_of_parts Network.init h'.2).trans hnone', fun hs =>
          hs.of_heads hlater₀.heads hlater₀.keeps.exists_kind (fun b hb _ => ?_) (fun i hi _ => ?_)
            (fun j hj hlive => ?_) hlater₀.legals⟩
        · rwa [field_of_parts Network.bases hparts, hbases]
        · rwa [field_of_parts Network.inputs hparts, hinputs]
        · -- init itself is gone
          obtain rfl := Option.some.inj (hinit.symm.trans hj)
          rw [get?_eq_none_iff.mp (h'.1.missing i rfl)] at hlive
          cases hlive
    · have hfed : ∀ k, base.get? i = some k → k.inputs ≠ [] := fun k' hk' => by
        rw [hk] at hk'
        cases hk'
        exact hnil
      exact .bind (foldConstant_driven hfed false) fun _ h => h.elim

end Constants

/-! ## Gates without inputs -/

section Danglers

variable {net : Network}

def Grounded (net : Network) : Prop := ∀ c k, net.get? c = some k → k.isGate = true → k.inputs ≠ []

theorem Trimming.foldGate {d : CompId} {k : Component} (h : Trimming net) (hk : net.get? d = some k)
    (hg : k.isGate) (hnil : k.inputs = []) :
    (net.foldConstant d k.value).Yields fun r => Trimming r.1 ∧ Later net r.1 ∧ r.1.parts = net.parts ∧
      ∀ c k', r.1.get? c = some k' → k'.isGate → k'.inputs = [] →
        c ≠ d ∧ ∃ k, net.get? c = some k ∧ k.isGate ∧ k.inputs = [] := by
  have hnorole : ∀ role, ¬ net.isRole d role := fun role hr => by
    rw [Component.isGate_of_hasRole ((isRole_of_get? hk).symm.trans hr)] at hg
    cases hg
  have hlast : ¬ Lasting net d := by
    rw [Lasting, op?_of_get? hk, Option.some.injEq, Option.some.injEq]
    rintro (hop | hop)
    · rw [Component.isGate, hop] at hg
      cases hg
    · rw [Component.isGate, hop] at hg
      cases hg
  refine (foldConstant_trimmed h.trimmable hk hnil (fun hop => hlast (.inr ?_)) (.inl ⟨hg, rfl⟩)
    fun hr => absurd ((isRole_of_get? hk).trans hr) (hnorole _)).mono fun r ht => ?_
  · rw [op?_of_get? hk, hop]
  obtain ⟨htrim, hlater⟩ := h.trimmed hk hnil ht rfl fun P ref _ p _ =>
    h.formed.source_eq (hnorole _) (hnorole _) p
  refine ⟨htrim, hlater, ht.parts, fun c k' hk' hg' hnil' => ⟨?_, ?_⟩⟩
  · rintro rfl
    have hgone := ht.gone hlast
    rw [contains_of_get? hk'] at hgone
    cases hgone
  · obtain ⟨k₀, hk₀, hface, -⟩ := ht.old c k' hk'
    refine ⟨k₀, hk₀, (isGate_of_kind (Component.kind_of_face hface)).symm.trans hg', ?_⟩
    rw [← inputsOf_of_get? hk₀]
    exact ht.spent c k' hk' hg' hnil'

theorem Trimming.foldDanglers (h : Trimming net) : net.foldDanglers.Ensures fun net' =>
    Trimming net' ∧ Later net net' ∧ net'.parts = net.parts ∧ net'.Grounded := by
  unfold Network.foldDanglers
  refine (Observed.partly.foldlM (fun rest cur => (∀ c ∈ rest, ∃ op, net.op? c = some op ∧
      op.isGate) ∧ Trimming cur ∧ Later net cur ∧ cur.parts = net.parts ∧
      ∀ c k, cur.get? c = some k → k.isGate → k.inputs = [] → c ∈ rest)
    (fun d rest cur hcur => ?_) _ net
    ⟨fun c hc => ?_, h, .refl net, rfl, fun c k hk hg hi => ?_⟩).mono fun net' h' => ?_
  · obtain ⟨hgates, htrim, hlater, hparts, hleft⟩ := hcur
    have hgates' := (forall_mem_cons.mp hgates).2
    cases hk : cur.get? d with
    | none =>
      refine .pure ⟨hgates', htrim, hlater, hparts, fun c k hkc hg hi => ?_⟩
      refine (mem_cons.mp (hleft c k hkc hg hi)).resolve_left ?_
      rintro rfl
      rw [hk] at hkc
      cases hkc
    | some k =>
      obtain ⟨op, hop, hg⟩ := hgates d mem_cons_self
      have hkop : k.op = op := op_of_get? hk ((op?_of_kind?_eq (hlater.keeps.kind? (contains_of_op? hop)
        (contains_of_get? hk))).trans hop)
      rw [← hkop] at hg
      dsimp only
      split
      · rename_i hnil
        refine .bind (htrim.foldGate hk hg (List.isEmpty_iff.mp hnil)).ensures fun r hr => .pure ?_
        obtain ⟨htrim', hlater', hparts', hspent⟩ := hr
        refine ⟨hgates', htrim', hlater.trans hlater', hparts'.trans hparts, fun c k' hk' hg' hi' => ?_⟩
        obtain ⟨hne, k₀, hk₀, hg₀, hi₀⟩ := hspent c k' hk' hg' hi'
        exact (mem_cons.mp (hleft c k₀ hk₀ hg₀ hi₀)).resolve_left hne
      · rename_i hfed
        refine .pure ⟨hgates', htrim, hlater, hparts, fun c k' hk' hg' hi' => ?_⟩
        refine (mem_cons.mp (hleft c k' hk' hg' hi')).resolve_left ?_
        rintro rfl
        rw [hk] at hk'
        cases hk'
        exact hfed (List.isEmpty_iff.mpr hi')
  · obtain ⟨x, hx, rfl⟩ := mem_map.mp hc
    obtain ⟨hx, hg⟩ := mem_filter.mp hx
    exact ⟨_, op?_of_get? (mem_components.mp hx), (Bool.and_eq_true_iff.mp hg).1⟩
  · refine mem_map.mpr ⟨(c, k), mem_filter.mpr ⟨mem_components.mpr hk, ?_⟩, rfl⟩
    show (k.isGate && k.inputs.isEmpty) = true
    rw [hg, hi]
    rfl
  · obtain ⟨-, htrim, hlater, hparts, hleft⟩ := h'
    exact ⟨htrim, hlater, hparts, fun c k hk hg hi => absurd (hleft c k hk hg hi) not_mem_nil⟩

end Danglers

/-! ## Inputs without a legal

They are taken off the list only at the end, so the stages in between are looked at with the list that
is left. -/

section Unpaired

variable {net net' : Network} {c i : CompId} {v : Bool} {xs : List CompId}

theorem Trimmed.relist (h : Trimmed net c v net') (xs : List CompId) :
    Trimmed { net with inputs := xs } c v { net' with inputs := xs } where
  parts := congrArg (fun net : Network => { net with inputs := xs }) h.parts
  capacity := h.capacity
  balanced := h.balanced
  acyclic := h.acyclic
  old := h.old
  kept := h.kept
  gone := h.gone
  quiet := h.quiet
  drained := h.drained
  spent := h.spent
  obeys := h.obeys
  stuck := h.stuck

theorem Drops.relist {gone : CompId → Prop} (h : Drops gone net net') (xs : List CompId) :
    Drops gone { net with inputs := xs } { net' with inputs := xs } :=
  ⟨h.capacity, h.missing, h.same, h.idle⟩

theorem trimmable_of_relist (h : Trimmable False { net with inputs := xs }) : Trimmable False net where
  balanced := h.balanced
  acyclic := h.acyclic
  narrow := h.narrow
  bits := False.elim
  counted := False.elim
  input := h.input
  paired := h.paired
  zero := h.zero

theorem Trimmed.grounded (h : Trimmed net c v net') (hg : net.Grounded) : net'.Grounded := by
  intro d k' hk' hgate hnil
  obtain ⟨k, hk, hface, -⟩ := h.old d k' hk'
  have hspent := h.spent d k' hk' hgate hnil
  rw [inputsOf_of_get? hk] at hspent
  exact hg d k hk ((isGate_of_kind (Component.kind_of_face hface)).symm.trans hgate) hspent

theorem Trimming.foldUnpaired {k : Component} (h : Trimming { net with inputs := xs })
    (hk : net.get? i = some k) (hi : net.isRole i .input) (hnone : net.pairedLegal? i = none)
    (hin : i ∉ xs) :
    Observed.Yields (do (← net.foldConstant i false).1.dropComponents [i]) fun net' =>
      Trimming { net' with inputs := xs } ∧
        Later { net with inputs := xs } { net' with inputs := xs } ∧ net'.parts = net.parts ∧
        net'.contains i = false ∧ (net.Grounded → net'.Grounded) := by
  have hnil : k.inputs = [] := (inputsOf_of_get? hk).symm.trans (h.formed.input i hi)
  have hop : k.op = .proposition := op_of_get? hk (op?_of_isRole hi)
  have hg : k.isGate = false := by rw [Component.isGate, hop]; rfl
  have hcount : k.count = countOf false := (countAt_of_get? hk).symm.trans (h.seeded.input i hi)
  refine .bind (foldConstant_trimmed (trimmable_of_relist h.trimmable) hk hnil (by rw [hop]; decide)
    (.inr ⟨hg, hcount⟩) fun _ => rfl) fun r ht => ?_
  have hti := ht.relist xs
  have hsource : ∀ P ref, Answers { net with inputs := xs } P ref → ∀ p, P p →
      Network.source { net with inputs := xs } p i = Network.valueAt { net with inputs := xs } i := by
    intro P ref ha p hp
    have hdoes : p.does i = false := Bool.eq_false_iff.mpr fun hdoes => by
      obtain ⟨l, hl, -⟩ := ha.lawful.legal p hp i hi hdoes
      cases hnone.symm.trans (h.formed.paired l i hl).2.2
    rw [source_of_input p (not_base_of_input h.formed hi) hi, hdoes,
      valueAt_of_countAt h.formed hi (h.seeded.input _ hi)]
  obtain ⟨htrim, hlater⟩ := h.trimmed hk hnil hti (h.value_of_count hk hg hcount) hsource
  have hpart : i ∉ Network.protectedIds { r.1 with inputs := xs } true :=
    htrim.formed.not_mem_protectedIds (hlater.keeps.isRole hi (ht.kept i (.inl (op?_of_isRole hi))))
      (.inl rfl) hin fun hinit => by
        cases isRole_unique hi (h.formed.init i ((field_of_parts Network.init hti.parts).symm.trans hinit))
  refine (Observed.Yields.lift (ht.dropComponents hk hnil hop)).mono fun net' h' => ?_
  obtain ⟨htrim', hlater'⟩ := htrim.dropped (h'.1.relist xs)
    (congrArg (fun net : Network => { net with inputs := xs }) h'.2) fun c hc hci => hpart (hci ▸ hc)
  refine ⟨htrim', hlater.trans hlater', h'.2.trans ht.parts, get?_eq_none_iff.mp (h'.1.missing i rfl),
    fun hground d k' hk' => ?_⟩
  exact ht.grounded hground d k' (h'.1.get?_of_some hk')

structure Unpairing (net : Network) (xs : List CompId) (rest : List (CompId × Bool)) (cur : Network) :
    Prop where
  unpaired : ∀ x ∈ rest, net.isRole x.1 .input = true ∧ net.pairedLegal? x.1 = none
  trimming : Trimming { cur with inputs := xs }
  later : Later { net with inputs := xs } { cur with inputs := xs }
  parts : cur.parts = net.parts
  grounded : net.Grounded → cur.Grounded
  left : ∀ i ∈ net.inputs, cur.contains i → i ∈ xs ∨ i ∈ rest.map (·.1)

theorem Unpairing.step {x : CompId × Bool} {rest : List (CompId × Bool)} {cur : Network}
    (h : Unpairing net xs (x :: rest) cur) (hrole : ∀ i ∈ net.inputs, net.isRole i .input)
    (hpaired : ∀ i ∈ xs, (net.pairedLegal? i).isSome) :
    Observed.Ensures (do (← cur.foldConstant x.1 false).1.dropComponents [x.1]) (Unpairing net xs rest) := by
  obtain ⟨i, b⟩ := x
  obtain ⟨hi, hnone⟩ := h.unpaired (i, b) mem_cons_self
  cases hk : cur.get? i with
  | none =>
    refine .bind (foldConstant_driven (fun k hk' => ?_) false) fun _ h => h.elim
    rw [hk] at hk'
    cases hk'
  | some k =>
    have hc := contains_of_get? hk
    have hkind : cur.kind? i = net.kind? i := h.later.keeps.kind? (contains_of_isRole hi) hc
    have hnone' : cur.pairedLegal? i = none := by
      rw [pairedLegal?, proposition?_of_kind? hkind]
      exact hnone
    have hin : i ∉ xs := by
      intro hin
      have := hpaired i hin
      rw [hnone] at this
      cases this
    refine (h.trimming.foldUnpaired hk (h.later.keeps.isRole hi hc) hnone' hin).ensures.mono fun net' h' => ?_
    obtain ⟨htrim', hlater', hparts', hgone, hground'⟩ := h'
    refine ⟨fun x hx => h.unpaired x (mem_cons_of_mem (i, b) hx), htrim', h.later.trans hlater',
      hparts'.trans h.parts, fun hg => hground' (h.grounded hg), fun j hj hlive => ?_⟩
    have hinput : Network.isRole { net' with inputs := xs } j .input = true :=
      (h.later.trans hlater').keeps.isRole (hrole j hj) hlive
    refine (h.left j hj (contains_of_isRole (hlater'.keeps.isRole_of hinput))).imp_right fun hmem =>
      (mem_cons.mp hmem).resolve_left ?_
    rintro rfl
    rw [hgone] at hlive
    cases hlive

theorem markPaired_ensures (net : Network) : Observed.Ensures (net.inputs.mapM fun i => do
    return (i, ← (do return ((← net.get i).proposition?.bind (·.pairedLegal)).isSome : Checked Bool)))
    fun marked => net.inputs.map (fun i => (i, (net.pairedLegal? i).isSome)) = marked := by
  refine (Observed.partly.mapM (R := fun i x => (i, (net.pairedLegal? i).isSome) = x) net.inputs
    fun i _ => ?_).mono fun marked hm => ?_
  · refine .bind (P := (· = (net.pairedLegal? i).isSome)) (.lift ?_) fun b hb => .pure ?_
    · refine .bind (fun k hk => get?_of_get hk) fun k hk => .pure ?_
      rw [pairedLegal?, proposition?_of_get? hk]
    · rw [hb]
  · rwa [← forall₂_map_left_iff, forall₂_eq_eq_eq] at hm

theorem Trimming.foldUnpairedInputs (h : Trimming net) : net.foldUnpairedInputs.Ensures fun net' =>
    Trimming net' ∧ Later net net' ∧ net'.init = net.init ∧ (net.Grounded → net'.Grounded) ∧
      (net.Supplied → net'.Supplied) := by
  unfold Network.foldUnpairedInputs
  refine .bind (markPaired_ensures net) fun marked hm => ?_
  have hof : ∀ x ∈ marked, x.1 ∈ net.inputs ∧ (net.pairedLegal? x.1).isSome = x.2 := by
    rw [← hm]
    intro x hx
    obtain ⟨i, hi, rfl⟩ := mem_map.mp hx
    exact ⟨hi, rfl⟩
  rw [partition_eq_filter_filter]
  dsimp only
  generalize hxs : (marked.filter (·.2)).map (·.1) = xs
  have hsub : ∀ i ∈ xs, i ∈ net.inputs ∧ (net.pairedLegal? i).isSome = true := by
    rw [← hxs]
    intro i hi
    obtain ⟨x, hx, rfl⟩ := mem_map.mp hi
    obtain ⟨hx, hx2⟩ := mem_filter.mp hx
    exact ⟨(hof x hx).1, (hof x hx).2.trans hx2⟩
  have hpaired : ∀ l i, net.pairedInput? l = some i → i ∈ xs := by
    intro l i hl
    obtain ⟨-, hi, hback⟩ := h.formed.paired l i hl
    rw [← hxs, ← hm]
    refine mem_map.mpr ⟨(i, true), mem_filter.mpr ⟨mem_map.mpr ⟨i, hi, ?_⟩, rfl⟩, rfl⟩
    rw [hback]
    rfl
  obtain ⟨htrim, hlater⟩ := h.relist net.init (fun _ hi => hi) (fun i hi => (hsub i hi).1) hpaired
  refine .bind (Observed.partly.foldlM (Unpairing net xs)
    (fun x rest cur hcur => hcur.step h.formed.inputs fun i hi => (hsub i hi).2) _ net
    ⟨fun x hx => ?_, htrim, .refl _, rfl, id, fun i hi _ => ?_⟩) fun net' h' => .pure ?_
  · obtain ⟨hx, hx2⟩ := mem_filter.mp hx
    refine ⟨h.formed.inputs _ (hof x hx).1, Option.not_isSome_iff_eq_none.mp ?_⟩
    rw [(hof x hx).2]
    simpa using hx2
  · -- a listed input is paired, or it is one of those to be folded
    have hmem : (i, (net.pairedLegal? i).isSome) ∈ marked := hm ▸ mem_map_of_mem hi
    cases hpair : (net.pairedLegal? i).isSome with
    | true =>
      refine .inl (hxs ▸ mem_map.mpr ⟨_, mem_filter.mpr ⟨hmem, hpair⟩, rfl⟩)
    | false =>
      refine .inr (mem_map.mpr ⟨_, mem_filter.mpr ⟨hmem, ?_⟩, rfl⟩)
      simp only [hpair, Function.comp_apply, Bool.not_false]
  · obtain ⟨-, htrim', hlater', hparts, hground, hleft⟩ := h'
    have hlater₀ := hlater.trans hlater'
    have hinit := field_of_parts Network.init hparts
    have hbases := field_of_parts Network.bases hparts
    exact ⟨htrim', hlater₀, hinit, hground, fun hs => hs.of_heads hlater₀.heads hlater₀.keeps.exists_kind
      (fun b hb _ => hbases.symm ▸ hb)
      (fun i hi hlive => (hleft i hi hlive).resolve_right not_mem_nil) (fun i hi _ => hinit.trans hi)
      hlater₀.legals⟩

end Unpaired

/-! ## Bases that nothing reads -/

section Useless

variable {net : Network} {done : List CompId} {pairs : List (CompId × CompId)} {cur : Network}
  {kept : KeptBases}

def IsPair (net : Network) (x : CompId × CompId) : Prop :=
  x.1 ∈ net.bases ∧ net.kind? x.2 = some (.transition (some x.1))

structure Sifted (net : Network) (done : List CompId) (pairs : List (CompId × CompId)) (cur : Network)
    (kept : KeptBases) : Prop where
  parts : cur.parts = net.parts
  drops : Drops (fun c => ∃ x ∈ pairs, c = x.1 ∨ c = x.2) net cur
  pair : ∀ x ∈ pairs, net.IsPair x ∧ x.1 ∈ done ∧ x.1 ∉ kept.bases
  bases : kept.bases.Sublist done
  rest : ∀ b ∈ done, b ∉ kept.bases → ∃ x ∈ pairs, b = x.1
  driven : List.Forall₂ (fun b t => net.kind? t = some (.transition (some b)))
    kept.bases kept.transitions
  start : ∀ f : CompId → Bool, net.initialState = net.bases.map f →
    kept.initialState = kept.bases.map f

theorem Sifted.nothing (net : Network) : Sifted net [] [] net {} where
  parts := rfl
  drops := by
    have hnone : ∀ c : CompId, ¬ ∃ x ∈ ([] : List (CompId × CompId)), c = x.1 ∨ c = x.2 := by
      rintro c ⟨x, hx, -⟩
      cases hx
    exact ⟨rfl, fun c hc => absurd hc (hnone c), fun _ _ => rfl, fun c hc => absurd hc (hnone c)⟩
  pair x hx := absurd hx not_mem_nil
  bases := .refl _
  rest b hb := absurd hb not_mem_nil
  driven := .nil
  start _ _ := rfl

theorem Sifted.keep (h : Sifted net done pairs cur kept) {b t : CompId} {v : Bool} (hb : b ∉ done)
    (ht : net.kind? t = some (.transition (some b)))
    (hv : ∀ f : CompId → Bool, net.initialState = net.bases.map f → v = f b) :
    Sifted net (done ++ [b]) pairs cur (kept.add b t v) where
  parts := h.parts
  drops := h.drops
  pair x hx := by
    obtain ⟨hpair, hdone, hkept⟩ := h.pair x hx
    refine ⟨hpair, mem_append_left _ hdone, fun hmem => ?_⟩
    rcases mem_append.mp hmem with hmem | hmem
    · exact hkept hmem
    · rw [mem_singleton.mp hmem] at hdone
      exact hb hdone
  bases := h.bases.append (.refl [b])
  rest b' hb' hkept := by
    rcases mem_append.mp hb' with hb' | hb'
    · exact h.rest b' hb' fun hmem => hkept (mem_append_left _ hmem)
    · exact absurd (mem_append_right _ hb') hkept
  driven := rel_append h.driven (.cons ht .nil)
  start f hf := by
    show kept.initialState ++ [v] = (kept.bases ++ [b]).map f
    rw [h.start f hf, hv f hf, map_append]
    rfl

theorem Sifted.drop (h : Sifted net done pairs cur kept) {b t : CompId} (hb : b ∉ done)
    (hpair : net.IsPair (b, t)) (hidle : ∀ c, c = b ∨ c = t → net.inputsOf c = [] ∧ net.outputsOf c = []) :
    Sifted net (done ++ [b]) ((b, t) :: pairs) ((cur.remove b).remove t) kept where
  parts := h.parts
  drops := by
    have hget : ∀ c, ((cur.remove b).remove t).get? c = if c = b ∨ c = t then none else cur.get? c := by
      intro c
      rw [get?_remove, get?_remove]
      grind
    refine ⟨?_, fun c hc => ?_, fun c hc => ?_, fun c hc => ?_⟩
    · rw [← h.drops.capacity]
      simp only [capacity, remove, Array.size_modify]
    · rw [hget]
      obtain ⟨x, hx, hcx⟩ := hc
      rcases mem_cons.mp hx with rfl | hx
      · rw [if_pos hcx]
      · rw [h.drops.missing c ⟨x, hx, hcx⟩, ite_self]
    · rw [hget, if_neg fun hcb => hc ⟨(b, t), mem_cons_self, hcb⟩]
      exact h.drops.same c fun hcp => hc (hcp.imp fun x hx => ⟨mem_cons_of_mem _ hx.1, hx.2⟩)
    · obtain ⟨x, hx, hcx⟩ := hc
      rcases mem_cons.mp hx with rfl | hx
      · exact hidle c hcx
      · exact h.drops.idle c ⟨x, hx, hcx⟩
  pair x hx := by
    rcases mem_cons.mp hx with rfl | hx
    · exact ⟨hpair, mem_append_right _ mem_cons_self, fun hmem => hb (h.bases.subset hmem)⟩
    · obtain ⟨hpair, hdone, hkept⟩ := h.pair x hx
      exact ⟨hpair, mem_append_left _ hdone, hkept⟩
  bases := h.bases.trans (sublist_append_left done [b])
  rest b' hb' hkept := by
    rcases mem_append.mp hb' with hb' | hb'
    · exact (h.rest b' hb' hkept).imp fun x hx => ⟨mem_cons_of_mem _ hx.1, hx.2⟩
    · exact ⟨(b, t), mem_cons_self, mem_singleton.mp hb'⟩
  driven := h.driven
  start := h.start

def keeping (net : Network) (kept : KeptBases) : Network :=
  { net with
    bases := kept.bases, transitions := kept.transitions, initialState := kept.initialState }

theorem Sifted.not_gone (hf : net.Formed) (hs : Sifted net done pairs cur kept) {c : CompId}
    (hrole : ∀ role, net.isRole c role → role = .base → c ∈ kept.bases)
    (hkind : ∀ b, net.kind? c = some (.transition (some b)) → b ∈ kept.bases) :
    ¬ ∃ x ∈ pairs, c = x.1 ∨ c = x.2 := by
  rintro ⟨x, hx, hc⟩
  obtain ⟨⟨hbase, hdrives⟩, -, hkept⟩ := hs.pair x hx
  rcases hc with rfl | rfl
  · exact hkept (hrole .base (hf.base _ hbase).1 rfl)
  · exact hkept (hkind _ hdrives)

theorem Sifted.contains (hf : net.Formed) (hs : Sifted net net.bases pairs cur kept) {c : CompId}
    (hc : c ∈ (cur.keeping kept).protectedIds true) : (cur.keeping kept).contains c := by
  have hlive : net.contains c → (¬ ∃ x ∈ pairs, c = x.1 ∨ c = x.2) →
      (cur.keeping kept).contains c = true := fun hc hnot => (hs.drops.contains hnot).trans hc
  have hplayers := field_of_parts Network.players hs.parts
  have hrole : ∀ {role : PropRole}, net.isRole c role → role ≠ .base →
      (cur.keeping kept).contains c = true := by
    intro role hr hne
    refine hlive (contains_of_isRole hr) (hs.not_gone hf (fun role' hr' hb => ?_) fun b hk => ?_)
    · rw [isRole_unique hr hr', hb] at hne
      exact absurd rfl hne
    have hop := op?_of_isRole hr
    rw [op?_of_kind? hk] at hop
    cases hop
  rcases mem_protectedIds.mp hc with hb | hi | hi | hl | ⟨-, hg⟩ | ht | ht
  · have hrole := (hf.base c (hs.bases.subset hb)).1
    refine hlive (contains_of_isRole hrole) (hs.not_gone hf (fun _ _ _ => hb) fun b hk => ?_)
    have hop := op?_of_isRole hrole
    rw [op?_of_kind? hk] at hop
    cases hop
  · have hinputs := field_of_parts Network.inputs hs.parts
    have hi : c ∈ cur.inputs := hi
    exact hrole (hf.inputs c (hinputs ▸ hi)) (by decide)
  · have hinit := field_of_parts Network.init hs.parts
    have hi : cur.init = some c := hi
    exact hrole (hf.init c (hinit ▸ hi)) (by decide)
  · have hl : c ∈ cur.legals := hl
    rw [legals, hplayers] at hl
    exact hrole (hf.legal c hl).1 (by decide)
  · have hg : c ∈ cur.goals := hg
    rw [goals, hplayers] at hg
    exact hrole (hf.goal c hg) (by decide)
  · obtain ⟨b, hb, hk⟩ := exists_of_mem_right hs.driven ht
    refine hlive (contains_of_op? (op?_of_kind? hk)) (hs.not_gone hf (fun role hr _ => ?_) fun b' hk' => ?_)
    · have hop := op?_of_isRole hr
      rw [op?_of_kind? hk] at hop
      cases hop
    · rw [hk] at hk'
      cases hk'
      exact hb
  · have hterminal := field_of_parts Network.terminal hs.parts
    have ht : c = net.terminal := ht.trans hterminal
    exact hrole (ht ▸ hf.terminal) (by decide)

theorem Sifted.trimming (h : Trimming net) (hs : Sifted net net.bases pairs cur kept) :
    Trimming (cur.keeping kept) ∧ Later net (cur.keeping kept) := by
  have hroles := field_of_parts Network.roles hs.parts
  have hplayers := field_of_parts Network.players hs.parts
  have hterminal := field_of_parts Network.terminal hs.parts
  have hinit := field_of_parts Network.init hs.parts
  have hinputs := field_of_parts Network.inputs hs.parts
  have hdrops : Drops (fun c => ∃ x ∈ pairs, c = x.1 ∨ c = x.2) net (cur.keeping kept) :=
    ⟨hs.drops.capacity, hs.drops.missing, hs.drops.same, hs.drops.idle⟩
  refine h.drops hdrops hroles hplayers hterminal (fun i hi => hinit.symm.trans hi) hs.bases ?_ hs.driven
    (fun i hi => hinputs ▸ hi) (fun l i hl => ?_) hs.start fun c hc => hs.contains h.formed hc
  · exact fun b hb hkept => (hs.rest b hb hkept).imp fun x hx => ⟨hx.1, .inl hx.2⟩
  have hi := (h.formed.paired l i hl).2.1
  rw [← hinputs] at hi
  exact hi

theorem Sifted.supplied (h : Trimming net) (hs : Sifted net net.bases pairs cur kept)
    (hsup : net.Supplied) : (cur.keeping kept).Supplied := by
  have hlater := (hs.trimming h).2
  have hinputs := field_of_parts Network.inputs hs.parts
  have hinit := field_of_parts Network.init hs.parts
  refine hsup.of_heads hlater.heads hlater.keeps.exists_kind (fun b hb hlive => ?_)
    (fun i hi _ => hinputs.symm ▸ hi) (fun i hi _ => hinit.trans hi) hlater.legals
  by_contra hkept
  obtain ⟨x, hx, hbx⟩ := hs.rest b hb hkept
  have hlive : cur.contains b := hlive
  rw [get?_eq_none_iff.mp (hs.drops.missing b ⟨x, hx, .inl hbx⟩)] at hlive
  cases hlive

theorem forall₂_getElem? {α β : Type} {R : α → β → Prop} {as : List α} {bs : List β}
    (h : List.Forall₂ R as bs) {i : Nat} {a : α} {b : β} (ha : as[i]? = some a) (hb : bs[i]? = some b) :
    R a b := by
  induction h generalizing i with
  | nil => cases ha
  | cons hab _ ih =>
    cases i with
    | zero =>
      cases ha
      cases hb
      exact hab
    | succ i => exact ih ha hb

theorem partner_ensures (partners : List CompId) (i : Nat) :
    (partner partners i).Ensures fun c => partners[i]? = some c := by
  unfold partner
  cases partners[i]? with
  | none => exact .throw
  | some c => exact .pure rfl

theorem isUselessBase_ensures (net : Network) (b t : CompId) : (net.isUselessBase b t).Ensures fun r =>
    r = true → net.outputsOf b = [] ∧ net.inputsOf t = [] := by
  unfold isUselessBase
  refine .bind (fun k hk => get?_of_get hk) fun k hk => ?_
  split
  · rename_i ho
    refine .bind (fun k' hk' => get?_of_get hk') fun k' hk' => .pure fun hi => ?_
    rw [outputsOf_of_get? hk, inputsOf_of_get? hk']
    exact ⟨List.isEmpty_iff.mp ho, List.isEmpty_iff.mp hi⟩
  · exact .pure fun h => by cases h

theorem Trimming.removeUselessBases (h : Trimming net) : net.removeUselessBases.Ensures fun r =>
    Trimming r.1 ∧ Later net r.1 ∧ r.1.init = net.init ∧ (net.Grounded → r.1.Grounded) ∧
      (net.Supplied → r.1.Supplied) := by
  unfold Network.removeUselessBases
  -- the loop keeps the bases that are done sifted into those that stay and pairs that go
  refine .bind (Checked.partly.foldlM (fun rest s => ∃ done pairs, net.bases.zipIdx = done ++ rest ∧
    Sifted net (done.map Prod.fst) pairs s.1 s.2.1 ∧ s.2.2 = pairs.length) (fun x rest s hs => ?_) _ _
    ⟨[], [], rfl, ?_, rfl⟩) fun s hs => ?_
  · obtain ⟨done, pairs, hsplit, hs, hn⟩ := hs
    obtain ⟨cur, kept, n⟩ := s
    obtain ⟨b, i⟩ := x
    have hb : net.bases[i]? = some b := by
      have hmem : (b, i) ∈ net.bases.zipIdx := hsplit ▸ mem_append_right _ mem_cons_self
      exact mem_zipIdx_iff_getElem?.mp hmem
    have hbase := mem_of_getElem? hb
    have hnew : b ∉ done.map Prod.fst := by
      have hnodup := h.formed.bases_nodup
      rw [← zipIdx_map_fst 0 net.bases, hsplit, map_append, nodup_append] at hnodup
      exact fun hmem => hnodup.2.2 b hmem b mem_cons_self rfl
    have htransitions := field_of_parts Network.transitions hs.parts
    have hnext : net.bases.zipIdx = (done ++ [(b, i)]) ++ rest := by
      rw [hsplit, append_assoc]
      rfl
    have hdone : (done ++ [(b, i)]).map Prod.fst = done.map Prod.fst ++ [b] := map_append
    dsimp only at hs hn ⊢
    refine .bind (partner_ensures cur.transitions i) fun t ht => ?_
    rw [htransitions] at ht
    have hpair : net.kind? t = some (.transition (some b)) := forall₂_getElem? h.formed.driven hb ht
    refine .bind (isUselessBase_ensures cur b t) fun r hr => ?_
    cases r with
    | true =>
      obtain ⟨ho, hi⟩ := hr rfl
      refine .pure ⟨done ++ [(b, i)], (b, t) :: pairs, hnext, ?_, by rw [hn]; rfl⟩
      rw [hdone]
      refine hs.drop hnew ⟨hbase, hpair⟩ fun c hc => ?_
      rcases hc with rfl | rfl
      · exact ⟨(h.formed.base c hbase).2, (hs.drops.outputsOf c).symm.trans ho⟩
      · exact ⟨(hs.drops.inputsOf c).symm.trans hi, h.formed.transition c (op?_of_kind? hpair)⟩
    | false =>
      refine .pure ⟨done ++ [(b, i)], pairs, hnext, ?_, hn⟩
      rw [hdone]
      refine hs.keep hnew hpair fun f hf => ?_
      have hstate := field_of_parts Network.initialState hs.parts
      rw [hstate, hf, getElem?_map, hb]
      rfl
  · exact .nothing net
  · obtain ⟨done, pairs, hsplit, hs, hn⟩ := hs
    obtain ⟨cur, kept, n⟩ := s
    rw [append_nil] at hsplit
    rw [← hsplit, zipIdx_map_fst] at hs
    have hinit := field_of_parts Network.init hs.parts
    have hground : net.Grounded → cur.Grounded := fun hg c k hk => hg c k (hs.drops.get?_of_some hk)
    dsimp only at hs hn ⊢
    split
    · rename_i hzero
      rw [hzero] at hn
      obtain rfl := length_eq_zero_iff.mp hn.symm
      obtain ⟨htrim, hlater⟩ := h.dropped hs.drops hs.parts fun c _ hc => by
        obtain ⟨x, hx, -⟩ := hc
        cases hx
      exact .pure ⟨htrim, hlater, hinit, hground, hlater.supplied_of_parts hs.parts⟩
    · obtain ⟨htrim, hlater⟩ := hs.trimming h
      exact .pure ⟨htrim, hlater, hinit, hground, hs.supplied h⟩

end Useless

end Network

end GameNet
