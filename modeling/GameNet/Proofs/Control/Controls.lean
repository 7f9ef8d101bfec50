import GameNet.Proofs.Control.Trace
import GameNet.Proofs.Eval.Confined
import GameNet.Proofs.Machine

/-!
Controls: the transitions that no move can influence.
-/

namespace GameNet

open List

/-! ## What no move reaches -/

namespace Network

def MoveFree (net : Network) (c : CompId) : Prop :=
  ∀ i, net.Upstream [c] i → net.isRole i .input = false

section MoveFree

variable {net : Network} {c : CompId} {σ σ' : CompId → Bool}

theorem upstream_singleton {i : CompId} : net.Upstream [c] i ↔ Relation.ReflTransGen net.Feeds i c := by
  simp only [Upstream, mem_singleton, exists_eq_left]

theorem evalWithin_congr (n : Nat) :
    ∀ c, (∀ i, net.Upstream [c] i → σ i = σ' i) → net.evalWithin σ n c = net.evalWithin σ' n c := by
  induction n with
  | zero => exact fun c h => h c (.root mem_cons_self)
  | succ n ih =>
    intro c h
    by_cases hi : net.inputsOf c = []
    · rw [evalWithin_of_source hi, evalWithin_of_source hi]
      exact h c (.root mem_cons_self)
    obtain ⟨k, hk⟩ := contains_iff.mp (contains_of_fed hi)
    rw [evalWithin_of_fed (op?_of_get? hk) hi, evalWithin_of_fed (op?_of_get? hk) hi]
    refine Op.read_of_forall_eq _ fun a ha => ih a fun i hup => h i ?_
    exact upstream_singleton.mpr ((upstream_singleton.mp hup).tail ha)

theorem MoveFree.eval_eq (h : net.MoveFree c)
    (hσ : ∀ c, net.isRole c .input = false → σ c = σ' c) : net.eval σ c = net.eval σ' c :=
  evalWithin_congr _ c fun i hi => hσ i (h i hi)

def Moved (net : Network) (c : CompId) : Prop :=
  ∃ i, net.isRole i .input = true ∧ Relation.ReflTransGen net.Feeds i c

theorem MoveFree.not_moved (h : net.MoveFree c) : ¬ net.Moved c := by
  rintro ⟨i, hi, hpath⟩
  rw [h i (upstream_singleton.mpr hpath)] at hi
  cases hi

theorem encloses_moved (hends : ∀ a, ∀ b ∈ net.outputsOf a, a ∈ net.inputsOf b) :
    net.Encloses net.Moved := by
  rintro a ⟨i, hi, hpath⟩ b hout
  exact ⟨i, hi, hpath.tail (hends a b hout)⟩

end MoveFree

end Network

/-! ## Strict tracers -/

namespace Tracer

open Network

structure Unmoved (net : Network) (t : Tracer) : Prop where
  strict : t.moves = none
  free : ∀ d, t.Knows d → net.isRole d .input = false

/-- A strict query ends with a flow if no input is upstream, and else at one. -/
theorem Unmoved.carries (net : Network) (c : CompId) : Carries net c (Unmoved net) fun r =>
    (∃ f, r.2 = .flow f ∧ net.MoveFree c) ∨
      ∃ i, r.2 = .input i ∧ net.Upstream [c] i ∧ net.isRole i .input = true where
  learns t d k h hk _ hmoves := by
    refine ⟨h.strict, fun e he => ?_⟩
    rcases knows_learn.mp he with rfl | he
    · rw [isRole, hk, Option.any_some, Bool.eq_false_iff]
      intro hrole
      have hsome := hmoves hrole
      rw [h.strict] at hsome
      cases hsome
    · exact h.free e he
  stops t d k _ hup hk hrole _ := .inr ⟨d, rfl, hup, by rwa [isRole, hk]⟩
  ends t h hall := .inl ⟨_, rfl, fun i hi => h.free i (hall i hi)⟩

theorem strict_value {net : Network} (ha : net.Acyclic) (c : CompId) :
    (Checked.upTo fun _ => ¬ net.Rooted [c]).holds (Tracer.strict.value net c) fun r =>
      (∃ f, r.2 = .flow f ∧ net.MoveFree c) ∨
        ∃ i, r.2 = .input i ∧ net.Upstream [c] i ∧ net.isRole i .input :=
  (Unmoved.carries net c).value ha ⟨rfl, fun _ h => by cases h⟩ fun _ h => by cases h

end Tracer

namespace Network

section Controls

variable {net : Network}

open Classical in
/-- If every transition can be traced, the controls are those with no input upstream. -/
theorem controls_eq (ha : net.Acyclic) (h : ∀ t ∈ net.transitions, ∃ r, Tracer.strict.value net t = .ok r) :
    net.controls = .ok (net.transitions.filter fun t => decide (net.MoveFree t)) := by
  refine Checked.filterM_yields _ fun t ht => ?_
  obtain ⟨⟨tracer, traced⟩, hr⟩ := h t ht
  rw [hr]
  rcases Checked.Ensures.of_upTo (Tracer.strict_value ha t) _ hr with ⟨f, hf, hfree⟩ | ⟨i, hf, hup, hi⟩
  · obtain rfl : traced = .flow f := hf
    rw [decide_eq_true hfree]
    rfl
  obtain rfl : traced = .input i := hf
  have hmoved : ¬ net.MoveFree t := fun hfree => by
    rw [hfree i hup] at hi
    cases hi
  rw [decide_eq_false hmoved]
  rfl

theorem exists_strict_value (ha : net.Acyclic) (hroot : net.Rooted net.transitions) :
    ∀ t ∈ net.transitions, ∃ r, Tracer.strict.value net t = .ok r := by
  intro t ht
  obtain ⟨r, hr, -⟩ := Checked.Yields.of_upTo (Tracer.strict_value ha t) fun _ hno =>
    hno fun c hc => hroot c ⟨t, ht, upstream_singleton.mp hc⟩
  exact ⟨r, hr⟩

end Controls

end Network

/-! ## Play -/

namespace SingleMachine

open Network

section Play

variable {net : Network} {m : SingleMachine}

theorem inputOf_ensures (hr : Recounts net m.net)
    (hpaired : ∀ l i, net.pairedInput? l = some i → net.isRole i .input) (l : CompId) :
    (m.inputOf l).Ensures fun i => net.isRole i .input := by
  unfold SingleMachine.inputOf
  split
  · exact .throw
  next k hk =>
  obtain ⟨hk, -⟩ := Option.filter_eq_some_iff.mp hk
  obtain ⟨n, hk'⟩ := hr.symm.get? hk
  split
  · next i hi =>
    exact .pure (hpaired l i (by rw [pairedInput?, hk']; exact hi))
  · exact .throw

theorem readState_value {cs : List CompId} {j : Nat} {c : CompId} (hc : cs[j]? = some c) :
    (m.readState cs Component.value).Ensures fun s => s.get j = m.net.valueAt c := by
  unfold SingleMachine.readState
  refine .bind (P := List.Forall₂ (fun d b => b = m.net.valueAt d) cs)
    (Checked.partly.mapM cs fun d _ => ?_) fun bits hbits => .pure ?_
  · exact .bind (fun k hk => get?_of_get hk) fun k hk => .pure (valueAt_of_get? hk).symm
  obtain ⟨hlen, hget⟩ := forall₂_iff_get.mp hbits
  obtain ⟨hj, rfl⟩ := List.getElem?_eq_some_iff.mp hc
  rw [BaseState.get_ofBools, getD_eq_getElem?_getD, getElem?_eq_getElem (hlen ▸ hj)]
  exact hget j hj (hlen ▸ hj)

theorem nextState_get (hends : ∀ a, ∀ b ∈ net.outputsOf a, a ∈ net.inputsOf b)
    (hpaired : ∀ l i, net.pairedInput? l = some i → net.isRole i .input) (hr : Recounts net m.net) (hidle : m.levels.Idle) {t : CompId} (hfree : net.MoveFree t) {j : Nat}
    (hj : net.transitions[j]? = some t) (legals : List CompId) :
    (m.nextState legals).Ensures fun r => r.1.get j = m.net.valueAt t := by
  unfold SingleMachine.nextState
  refine .bind (Checked.partly.mapM legals fun l _ => inputOf_ensures hr hpaired l) fun inputs hinputs => ?_
  have hset : ∀ x ∈ inputs.map (·, true), net.Moved x.1 := by
    intro x hx
    obtain ⟨i, hi, rfl⟩ := mem_map.mp hx
    obtain ⟨hlen, hrole⟩ := forall₂_iff_get.mp hinputs
    obtain ⟨n, hn, rfl⟩ := mem_iff_getElem.mp hi
    exact ⟨_, hrole n (hlen ▸ hn) hn, .refl⟩
  refine .bind (setMany_within ((encloses_moved hends).recounts hr) hidle hset) fun m₁ h₁ => ?_
  have hparts : m₁.net.parts.transitions = net.parts.transitions :=
    congrArg _ (hr.trans h₁.recounts).parts
  have htrans : m₁.net.transitions[j]? = some t := hj ▸ congrArg (·[j]?) hparts
  refine .bind (readState_value htrans) fun s hs => ?_
  exact .bind (P := fun _ => True) (fun _ _ => trivial) fun _ _ =>
    .pure (hs.trans (h₁.valueAt_eq hfree.not_moved))

end Play

end SingleMachine

namespace Network

open Classical in
/-- The controls are the transitions without an input upstream, in order, and they are found if nothing is
missing upstream. The value of a control is the same for all inputs, and so in play is the bit that it
decides, whatever is chosen. -/
theorem controls_exact {net : Network} (ha : net.Acyclic) :
    (net.Rooted net.transitions → ∃ ts, net.controls = .ok ts) ∧
    net.controls.Ensures fun ts =>
      ts = net.transitions.filter (fun t => decide (net.MoveFree t)) ∧
      ∀ t ∈ ts,
        (∀ σ σ', (∀ c, net.isRole c .input = false → σ c = σ' c) → net.eval σ t = net.eval σ' t) ∧
        ((∀ a, ∀ b ∈ net.outputsOf a, a ∈ net.inputsOf b) →
          (∀ l i, net.pairedInput? l = some i → net.isRole i .input = true) →
          ∀ j, net.transitions[j]? = some t →
          ∀ m : SingleMachine, Recounts net m.net → m.levels.Idle →
          ∀ legals legals' r r', m.nextState legals = .ok r → m.nextState legals' = .ok r' →
            r.1.get j = r'.1.get j) := by
  refine ⟨fun hroot => ⟨_, controls_eq ha (exists_strict_value ha hroot)⟩, fun ts hts => ?_⟩
  have htraced : ∀ t ∈ net.transitions, ∃ r, Tracer.strict.value net t = .ok r := by
    intro t ht
    obtain ⟨keep, hkeep⟩ := Checked.exists_of_filterM_eq_ok hts t ht
    obtain ⟨r, hr, -⟩ := exists_of_bind_eq_ok hkeep
    exact ⟨r, hr⟩
  obtain rfl := Except.ok.inj (hts.symm.trans (controls_eq ha htraced))
  refine ⟨rfl, fun t ht => ?_⟩
  have hfree : net.MoveFree t := of_decide_eq_true (List.mem_filter.mp ht).2
  refine ⟨fun σ σ' hσ => hfree.eval_eq hσ, fun hends hpaired j hj m hr hidle legals legals' r r' h h' => ?_⟩
  have hbit := SingleMachine.nextState_get hends hpaired hr hidle hfree hj
  rw [hbit legals r h, hbit legals' r' h']

def clockLamp : Network :=
  let press := Term.atom "press"
  let prop (role : PropRole) (name : String) : Proposition := { role, term := .atom name }
  { roles := ["hand"]
    slots := #[
      some { kind := .proposition (prop .base "tick"), outputs := [2] },
      some { kind := .transition (some 0), inputs := [2], count := 1 },
      some { kind := .not, inputs := [0], outputs := [1, 4], sign := -1 },
      some { kind := .proposition
              { prop .input "press" with player := some 0, move := some press, pairedLegal := some 4 }
             outputs := [7] },
      some { kind := .proposition
              { prop .legal "press" with player := some 0, move := some press, pairedInput := some 3 }
             inputs := [2], count := 1 },
      some { kind := .proposition (prop .base "lit"), outputs := [7] },
      some { kind := .transition (some 5), inputs := [7] },
      some { kind := .or, inputs := [5, 3], outputs := [6] }]
    bases := [0, 5], inputs := [3], transitions := [1, 6], initialState := [false, false]
    players := [{ name := "hand", inputs := [3], legals := [4] }] }

/-- Only the clock's transition is a control. The clock ticks with the button pressed and without, and the
lamp is lit in one case only. -/
theorem controls_exact_clockLamp : clockLamp.Acyclic ∧ clockLamp.controls = .ok [1] ∧
    (∀ σ σ', (∀ c, clockLamp.isRole c .input = false → σ c = σ' c) →
      clockLamp.eval σ 1 = clockLamp.eval σ' 1) ∧
    ∃ r r', (⟨clockLamp, .byLevel, .new clockLamp, none⟩ : SingleMachine).nextState [4] = .ok r ∧
      (⟨clockLamp, .byLevel, .new clockLamp, none⟩ : SingleMachine).nextState [] = .ok r' ∧
      r.1.get 0 = r'.1.get 0 ∧ r.1.get 1 = true ∧ r'.1.get 1 = false := by
  have hranked : clockLamp.Ranked fun c => [0, 2, 1, 0, 2, 0, 2, 1].getD c 0 := by decide
  have hcontrols : clockLamp.controls = .ok [1] := by decide +kernel
  obtain ⟨hvalue, hplay⟩ := ((controls_exact hranked.acyclic).2 [1] hcontrols).2 1 List.mem_cons_self
  have hbalanced : clockLamp.Balanced := by decide
  have hends : ∀ a, ∀ b ∈ clockLamp.outputsOf a, a ∈ clockLamp.inputsOf b := fun a b h =>
    hbalanced.mem_iff.mp h
  have hpaired : ∀ l i, clockLamp.pairedInput? l = some i → clockLamp.isRole i .input = true := by
    intro l i hl
    obtain ⟨k, hk, hrole⟩ := paired_of_components (by decide) l i hl
    rwa [isRole, hk]
  have hok : (do
      let r ← (⟨clockLamp, .byLevel, .new clockLamp, none⟩ : SingleMachine).nextState [4]
      let r' ← (⟨clockLamp, .byLevel, .new clockLamp, none⟩ : SingleMachine).nextState []
      return (r.1.get 1, r'.1.get 1) : Checked (Bool × Bool)) = .ok (true, false) := by decide +kernel
  obtain ⟨r, hr, hok⟩ := exists_of_bind_eq_ok hok
  obtain ⟨r', hr', hok⟩ := exists_of_bind_eq_ok hok
  obtain ⟨hpressed, hnot⟩ := Prod.mk.inj (Except.ok.inj hok)
  exact ⟨hranked.acyclic, hcontrols, hvalue, r, r', hr, hr', hplay hends hpaired 0 rfl _ (.refl _)
    (SingleMachine.idle_new clockLamp) _ _ r r' hr hr', hpressed, hnot⟩

end Network

end GameNet
