import GameNet.Compile
import GameNet.Proofs.Compile.NewGates
import GameNet.Proofs.Eval.Confined

/-!
The initial state: everything is counted with init true, and then init is switched off.

If something drives init, switching it off may leave counts wrong downstream.
-/

namespace GameNet.Network

open List

/-! ## Counting with init true -/

theorem counting_seedCount (k : Component) : (seedCount k).counting 0 = k.counting 0 := by
  unfold seedCount
  split
  · rfl
  · split <;> rfl
  · split <;> rfl

def opening (net : Network) (init : CompId) : Network :=
  (net.mapComponents seedCount).recount1 init 1

theorem recounts_opening (net : Network) (init : CompId) : Recounts net (net.opening init) := by
  have hseed : Recounts net (net.mapComponents seedCount) := by
    refine ⟨rfl, Array.size_map, fun c => ?_⟩
    rw [get?_mapComponents]
    cases net.get? c with
    | none => rfl
    | some k => exact congrArg some (counting_seedCount k)
  exact hseed.trans (recounts_recount1 _ init 1)

theorem countAt_opening {net : Network} {init c : CompId} {k : Component} (hk : net.get? c = some k) :
    (net.opening init).countAt c = if c = init then 1 else (seedCount k).count := by
  have hk' : (net.mapComponents seedCount).get? c = some (seedCount k) := by
    rw [get?_mapComponents, hk]
    rfl
  split
  · next h =>
    subst h
    rw [opening, countAt, get?_recount1_self hk']
    rfl
  · next h => rw [opening, countAt, get?_recount1_of_ne h, hk']; rfl

section Exact

variable {net : Network}

theorem counting_of_exact (hb : net.Balanced)
    (htrans : ∀ t, net.op? t = some .transition → net.outputsOf t = []) {c : CompId} {k : Component}
    (hk : net.get? c = some k) (hi : k.inputs ≠ []) (hop : k.op ≠ .constant)
    (h : Recount.Exact net c) : k.count = (k.inputs.countP net.valueAt : Nat) ∧
      (k.op ≠ .and → k.op ≠ .or → k.inputs.length ≤ 1) := by
  have hcount := h k hk
  by_cases hgate : k.op = .and ∨ k.op = .or
  · exact ⟨hcount.gate hgate, fun hand hor => absurd hgate (not_or.mpr ⟨hand, hor⟩)⟩
  obtain ⟨hand, hor⟩ := not_or.mp hgate
  have hfree : ¬ Recount.Held net k := by
    rintro (hnil | hconst | ⟨-, t, ht, htop⟩)
    · exact hi hnil
    · exact hop hconst
    have hct : c ∈ net.outputsOf t := by
      rw [hb.mem_iff, inputsOf_of_get? hk, ht]
      exact mem_singleton_self t
    rw [htrans t htop] at hct
    cases hct
  obtain ⟨hone, hn⟩ := hcount.fed hand hor hfree
  exact ⟨hn, fun _ _ => Nat.le_of_eq hone⟩

end Exact

structure Derived (net : Network) (init : CompId) (net' : Network) : Prop where
  named : net.init = some init
  recounts : Recounts { net with initialState := net'.initialState } net'
  off : net'.countAt init = 0
  width : net'.initialState.length = net.transitions.length
  source : ∀ c k, net.get? c = some k → k.inputs = [] → c ≠ init → k.op ≠ .and → k.op ≠ .or →
    net'.countAt c = (seedCount k).count
  rest : ∀ c k, net.get? c = some k → k.inputs = [] → k.op = .and ∨ k.op = .or → k.outputs ≠ [] →
    net'.countAt c = 0
  narrow : ∀ c k, net.get? c = some k → k.op ≠ .and → k.op ≠ .or → k.op ≠ .constant →
    k.inputs.length ≤ 1
  start : net.inputsOf init = [] → (∀ c, net.op? c = some .constant → net.inputsOf c = []) →
    net.Standard → net'.Tallied ∧ net'.initialState =
      net.transitions.map (net.eval fun c => if c = init then true else net'.valueAt c)

theorem Recounts.withState {net net' : Network} (h : Recounts net net') (bits : List Bool) :
    Recounts { net with initialState := bits } { net' with initialState := bits } where
  parts := by
    have hparts := congrArg (fun net : Network => { net with initialState := bits }) h.parts
    exact hparts
  capacity := h.capacity
  slot := h.slot

theorem readAll_eq {net : Network} {cs : List CompId} {bits : List Bool}
    (h : (cs.mapM fun t => do return (← net.get t).value : Checked (List Bool)) = .ok bits) :
    bits = cs.map net.valueAt := by
  have hall := Checked.mapM_eq_ok h
  clear h
  induction hall with
  | nil => rfl
  | cons hab _ ih =>
    obtain ⟨k, hk, hb⟩ := exists_of_bind_eq_ok hab
    rw [map_cons, ← ih, valueAt_of_get? (get?_of_get hk)]
    exact congrArg (· :: _) (Except.ok.inj hb).symm

structure Counted (net : Network) (init : CompId) (net' : Network) : Prop where
  recounts : Recounts net net'
  source : ∀ c k, net.get? c = some k → k.inputs = [] → k.op ≠ .and → k.op ≠ .or →
    net'.countAt c = if c = init then 1 else (seedCount k).count
  rest : ∀ c k, net.get? c = some k → k.inputs = [] → k.op = .and ∨ k.op = .or → k.outputs ≠ [] →
    net'.countAt c = 0
  fed : ∀ c k', net'.get? c = some k' → k'.inputs ≠ [] → k'.op ≠ .constant →
    k'.count = (k'.inputs.countP net'.valueAt : Nat) ∧
      (k'.op ≠ .and → k'.op ≠ .or → k'.inputs.length ≤ 1)

section Counted

variable {net net' : Network} {init : CompId}

theorem counted_of_recounted (hb : net.Balanced) (ha : net.Acyclic)
    (htrans : ∀ t, net.op? t = some .transition → net.outputsOf t = [])
    (hrec : (net.opening init).Recounted (net.opening init).sinks net') : Counted net init net' := by
  have hr₁ := recounts_opening net init
  have hb₁ := hr₁.balanced hb
  have ha₁ := hr₁.acyclic ha
  have hr := hr₁.trans hrec.recounts
  refine ⟨hr, fun c k hk hi hand hor => ?_, fun c k hk hi hgate ho => ?_, fun c k' hk' hi hop => ?_⟩
  · obtain ⟨n, hk₁⟩ := hr₁.get? hk
    rw [hrec.held c _ hk₁ hand hor (.inl hi), countAt_opening hk]
  · obtain ⟨n, hk₁⟩ := hr₁.get? hk
    obtain ⟨m, hk'⟩ := hr.get? hk
    obtain ⟨r, hroot, hpath⟩ := exists_sink hb₁ ha₁ (c := c) (.inr (by rwa [outputsOf_of_get? hk₁]))
    have hn := (hrec.exact c ⟨r, hroot, hpath⟩ _ hk').gate hgate
    rw [countAt_of_get? hk', hn]
    have hnil : (k.counting m).inputs = [] := hi
    rw [hnil]
    rfl
  · refine counting_of_exact (hr.balanced hb) (fun t ht => ?_) hk' hi hop (hrec.exact_of_fed hb₁ ha₁ ?_)
    · rw [hr.op?] at ht
      rw [hr.outputsOf]
      exact htrans t ht
    · rwa [← hrec.recounts.inputsOf, inputsOf_of_get? hk']

theorem Counted.tallied (h : Counted net init net')
    (hconst : ∀ c, net.op? c = some .constant → net.inputsOf c = []) : net'.Tallied := by
  intro c k' hk' hi
  refine (h.fed c k' hk' hi fun hop => hi ?_).1
  rw [← inputsOf_of_get? hk', h.recounts.inputsOf]
  exact hconst c (by rw [← h.recounts.op?, op?_of_get? hk', hop])

theorem Counted.init_on (h : Counted net init net') (hop : net.op? init = some .proposition)
    (hi : net.inputsOf init = []) :
    ∃ k', net'.get? init = some k' ∧ k'.inputs = [] ∧ k'.isGate = false ∧ k'.count = 1 := by
  obtain ⟨k, hk, hop⟩ := Option.map_eq_some_iff.mp hop
  obtain ⟨n, hk'⟩ := h.recounts.get? hk
  have hnil : k.inputs = [] := by rwa [inputsOf_of_get? hk] at hi
  have hn : n = 1 := by
    have := h.source init k hk hnil (by rw [hop]; decide) (by rw [hop]; decide)
    rwa [if_pos rfl, countAt_of_get? hk'] at this
  have hg : k.isGate = false := by
    rw [Component.isGate, hop]
    rfl
  exact ⟨_, hk', hnil, hg, hn⟩

theorem Counted.valueAt_eq (h : Counted net init net') (hf : net.Formed) (hstd : net.Standard)
    (htal : net'.Tallied) (hrole : net.isRole init .init) (hi : net.inputsOf init = [])
    {off : Network} (hsame : ∀ d, d ≠ init → net'.inputsOf d = [] → off.valueAt d = net'.valueAt d)
    {t : CompId} (ht : net.contains t) :
    net'.valueAt t = net.eval (fun c => if c = init then true else off.valueAt c) t := by
  have hobeys : net.Obeys net'.valueAt := by
    intro c op hop hi
    rw [← h.recounts.inputsOf] at hi ⊢
    exact htal.obeys (h.recounts.standard hstd) c op ((h.recounts.op? c).trans hop) hi
  refine hobeys.eq_eval hf.balanced hf.acyclic (fun c hc hci => ?_) t ht
  split
  · next hinit =>
    subst hinit
    obtain ⟨k, hk, -, hg, hone⟩ := h.init_on (op?_of_isRole hrole) hi
    rw [valueAt_of_get? hk, (h.recounts.standard hstd c k hk).value_of_plain hg, hone]
    rfl
  · next hinit => exact (hsame c hinit ((h.recounts.inputsOf c).trans hci)).symm

end Counted

theorem deriveInitialState_ensures {net : Network} (h : net.Formed) :
    net.deriveInitialState.Ensures fun net' => ∃ init, Derived net init net' := by
  unfold deriveInitialState
  cases hinit : net.init with
  | none => exact .throw
  | some init =>
    dsimp only
    have hrole := h.init init hinit
    have hr₁ := recounts_opening net init
    have hb₁ := hr₁.balanced h.balanced
    have ha₁ := hr₁.acyclic h.acyclic
    refine .bind (P := (· = net.opening init)) (fun net₁ h₁ => ?_) fun net₁ h₁ => ?_
    · unfold update at h₁
      split at h₁
      · exact (Except.ok.inj h₁).symm
      · cases h₁
    subst h₁
    refine .bind (recount_ensures ha₁ _ false) fun net₂ h₂ => ?_
    have hr₂ := hr₁.trans h₂.recounts
    have htrans := field_of_parts Network.transitions hr₂.parts
    refine .bind (P := (· = net.transitions.map net₂.valueAt)) (fun bits hbits => ?_) fun bits hbits => ?_
    · rw [htrans] at hbits
      exact readAll_eq hbits
    subst hbits
    have hr₃ := hr₂.withState (net.transitions.map net₂.valueAt)
    have hcounted : Counted net init net₂ :=
      counted_of_recounted h.balanced h.acyclic h.transition h₂
    -- counts that were right when init was true stay right when it falls
    refine .bind (P := fun r => _ ∧ (net.inputsOf init = [] → net₂.Tallied → net.Standard → r.1.Tallied))
      ((propagate_ensures (hr₃.balanced h.balanced) (hr₃.acyclic h.acyclic)).and
        fun r hok hi htal hstd => ?_) fun r hr => .pure ⟨init, ?_⟩
    · obtain ⟨k, hk, hnil, hg, hone⟩ := hcounted.init_on (op?_of_isRole hrole) hi
      have hset : Settable { net₂ with initialState := net.transitions.map net₂.valueAt } init :=
        ⟨k, hk, hnil, hg, .inr hone⟩
      obtain ⟨_, hok', -, htal', -⟩ := propagate_yields (hr₃.balanced h.balanced)
        (hr₃.acyclic h.acyclic) (hr₃.standard hstd) htal hset
      rw [hok] at hok'
      cases hok'
      exact htal'
    obtain ⟨⟨hr₄, hoff, hsame⟩, htal⟩ := hr
    have hbits : r.1.initialState = net.transitions.map net₂.valueAt :=
      field_of_parts Network.initialState hr₄.parts
    have hinput : ∀ {c k}, net.get? c = some k → k.inputs = [] → net₂.inputsOf c = [] :=
      fun hk hi => (hr₂.inputsOf _).trans ((inputsOf_of_get? hk).trans hi)
    refine ⟨hinit, hbits ▸ hr₃.trans hr₄, hoff, by rw [hbits, length_map], fun c k hk hi hne hand hor => ?_,
      fun c k hk hi hgate ho => ?_, fun c k hk hand hor hconst => ?_, fun hi hconst hstd => ?_⟩
    · rw [hsame c hne (hinput hk hi)]
      exact (hcounted.source c k hk hi hand hor).trans (if_neg hne)
    · have hne : c ≠ init := by
        rintro rfl
        have hop := op?_of_isRole hrole
        rw [op?_of_get? hk, Option.some.injEq] at hop
        rw [hop] at hgate
        exact hgate.elim (fun h => by cases h) fun h => by cases h
      rw [hsame c hne (hinput hk hi)]
      exact hcounted.rest c k hk hi hgate ho
    · by_cases hi : k.inputs = []
      · rw [hi]
        exact Nat.zero_le 1
      · obtain ⟨n, hk'⟩ := hr₂.get? hk
        exact (hcounted.fed c _ hk' hi hconst).2 hand hor
    · have htal₂ := hcounted.tallied hconst
      refine ⟨htal hi htal₂ hstd, hbits.trans (map_congr_left fun t ht => ?_)⟩
      exact hcounted.valueAt_eq h hstd htal₂ hrole hi
        (fun d hd hdi => hr₄.valueAt_eq (hsame d hd hdi)) (contains_of_op? (h.op?_of_transition ht))

/-! ## What holds from then on -/

structure Seeded (net : Network) : Prop where
  base : ∀ b ∈ net.bases, net.countAt b = 0 ∨ net.countAt b = 1
  input : ∀ i, net.isRole i .input = true → net.countAt i = 0
  constant : ∀ c, net.op? c = some .constant → net.inputsOf c = [] →
    net.countAt c = 0 ∨ net.countAt c = 1

def Unlit (net : Network) : Prop := ∀ b ∈ net.bases, net.countAt b = 0

section Derived

variable {net net' : Network} {init : CompId}

theorem Formed.withState (h : net.Formed) (bits : List Bool) : Formed { net with initialState := bits } where
  toCast := ⟨h.base, h.bases_nodup, h.driven, h.transition, h.input, h.inputs, h.terminal, h.init,
    h.legal, h.goal, h.paired⟩
  balanced := h.balanced
  acyclic := h.acyclic
  shaped := h.shaped

theorem Formed.recounts (h : net.Formed) (hr : Recounts net net') : net'.Formed where
  toCast := by
    have hlegals := field_of_parts Network.legals hr.parts
    have hgoals := field_of_parts Network.goals hr.parts
    have hinputs := field_of_parts Network.inputs hr.parts
    have hbases := field_of_parts Network.bases hr.parts
    have htrans := field_of_parts Network.transitions hr.parts
    refine h.congr hr.kind? hr.inputsOf hr.outputsOf (hbases ▸ .refl _) ?_ (fun i => by rw [hinputs])
      (fun l => by rw [hlegals]) (fun g hg => hgoals ▸ hg) (field_of_parts Network.terminal hr.parts)
      (field_of_parts Network.init hr.parts)
    rw [hbases, htrans]
    exact h.driven
  balanced := hr.balanced h.balanced
  acyclic := hr.acyclic h.acyclic
  shaped c k' hk' := by
    obtain ⟨n, hk⟩ := hr.symm.get? hk'
    exact h.shaped c (k'.counting n) hk

theorem Fitted.recounts (h : net.Fitted) (hr : Recounts net net') : net'.Fitted := by
  intro c k' hk' hop
  obtain ⟨n, hk⟩ := hr.symm.get? hk'
  exact h c (k'.counting n) hk hop

section

variable (h : Derived net init net')
include h

theorem Derived.field {α : Type} (f : Network → α)
    (hf : ∀ (net : Network) (bits : List Bool), f { net.parts with initialState := bits } = f net := by
      intros; rfl) : f net' = f net := by
  have hparts := congrArg (fun parts : Network => { parts with initialState := [] }) h.recounts.parts
  rw [← hf net' [], ← hf net []]
  exact congrArg f hparts

theorem Derived.formed (hf : net.Formed) : net'.Formed :=
  (hf.withState _).recounts h.recounts

theorem Derived.fitted (hf : net.Fitted) : net'.Fitted := by
  have hf' : Fitted { net with initialState := net'.initialState } := hf
  exact hf'.recounts h.recounts

theorem Derived.ended (he : net.Ended) : net'.Ended := by
  intro l hl
  rw [field_of_parts Network.legals h.recounts.parts] at hl
  rw [h.recounts.outputsOf]
  exact he l hl

theorem Derived.countAt_of_role (hf : net.Formed) {c : CompId} {role : PropRole} (hne : role ≠ .init)
    (hc : net.isRole c role) (hi : net.inputsOf c = []) : net'.countAt c = 0 := by
  obtain ⟨k, hk⟩ := contains_iff.mp (contains_of_isRole hc)
  have hop : k.op = .proposition := by
    have := op?_of_isRole hc
    rwa [op?_of_get? hk, Option.some.injEq] at this
  rw [inputsOf_of_get? hk] at hi
  have hci : c ≠ init := by
    rintro rfl
    exact hne (isRole_unique hc (hf.init c h.named))
  rw [h.source c k hk hi hci (by rw [hop]; decide) (by rw [hop]; decide), seedCount]
  simp only [hop, hi, isEmpty_nil, Bool.true_or, if_true]

theorem Derived.unlit (hf : net.Formed) : net'.Unlit := by
  intro b hb
  rw [field_of_parts Network.bases h.recounts.parts] at hb
  obtain ⟨hbase, hnil⟩ := hf.base b hb
  exact h.countAt_of_role hf (by decide) hbase hnil

theorem Derived.seeded (hf : net.Formed) : net'.Seeded := by
  have hrole : ∀ c role, net'.isRole c role = net.isRole c role := fun c role =>
    isRole_of_kind? (h.recounts.kind? c) role
  refine ⟨fun b hb => .inl (h.unlit hf b hb), fun i hi => ?_, fun c hop hi => ?_⟩
  · rw [hrole] at hi
    exact h.countAt_of_role hf (by decide) hi (hf.input i hi)
  rw [h.recounts.op?] at hop
  rw [h.recounts.inputsOf] at hi
  have hop : net.op? c = some .constant := hop
  obtain ⟨k, hk⟩ := contains_iff.mp (contains_of_op? hop)
  rw [op?_of_get? hk, Option.some.injEq] at hop
  have hi : k.inputs = [] := (inputsOf_of_get? hk).symm.trans hi
  have hci : c ≠ init := by
    rintro rfl
    have := op?_of_isRole (hf.init c h.named)
    rw [op?_of_get? hk, hop] at this
    cases this
  rw [h.source c k hk hi hci (by rw [hop]; decide) (by rw [hop]; decide), seedCount]
  simp only [hop]
  split
  · exact .inr rfl
  · exact .inl rfl

theorem Derived.rested (hfit : net.Fitted) : net'.Rested := by
  intro c k' hk' hop hi ho
  obtain ⟨n, hk⟩ := h.recounts.symm.get? hk'
  have hk : net.get? c = some (k'.counting n) := hk
  refine ⟨?_, fun hand => ?_⟩
  · rw [← countAt_of_get? hk']
    exact h.rest c _ hk hi hop ho
  have hreq := (hfit c _ hk hand).1
  have hlen : (k'.counting n).inputs = [] := hi
  rw [hlen] at hreq
  exact hreq

end

end Derived

end GameNet.Network
