import GameNet.Proofs.Machine

/-!
Depth first and level by level, the same settings lead to the same counts.

Both evaluators end with right counts, and there is only one way of counting right once the components
without inputs are given.
-/

namespace GameNet

open List

namespace Network

def propagateEach (net : Network) (values : List (CompId × Bool)) : Checked Network :=
  values.foldlM (fun net x => do return (← net.propagate x.1 x.2).1) net

end Network

def Levels.assign (lv : Levels) (net : Network) (values : List (CompId × Bool)) :
    Checked (Network × Levels) := do
  let lv ← values.foldlM (fun lv x => lv.set net x.1 x.2) lv
  lv.run net

namespace Network

/-- The settings are made: counts are right, and what has no inputs counts what it was set to, or what
it did before. -/
structure Fulfils (net : Network) (values : List (CompId × Bool)) (net' : Network) : Prop where
  recounts : Recounts net net'
  tallied : net'.Tallied
  set : ∀ x ∈ values, net'.countAt x.1 = countOf x.2
  kept : ∀ c, net.inputsOf c = [] → c ∉ values.map (·.1) → net'.countAt c = net.countAt c

section Fulfils

variable {net net' net'' : Network} {values order : List (CompId × Bool)}

theorem Fulfils.of_aimed (hr : Recounts net net') (ht : net'.Tallied)
    (hv : ∀ x ∈ values, net.Settable x.1) (hd : (values.map (·.1)).Nodup)
    (hcount : ∀ c, net.contains c → net.inputsOf c = [] → net'.countAt c = aimed values net.countAt c) :
    net.Fulfils values net' where
  recounts := hr
  tallied := ht
  set x hx := by
    obtain ⟨k, hk, hi, -⟩ := hv x hx
    rw [hcount x.1 (contains_of_get? hk) (by rw [inputsOf_of_get? hk, hi])]
    exact aimed_of_mem (fun y hy he => by rw [inj_on_of_nodup_map hd hy hx he]) (mem_map_of_mem hx)
  kept c hi hc := by
    cases hk : net.get? c with
    | none => rw [countAt, countAt, hr.get?_none hk, hk]
    | some k => rw [hcount c (contains_of_get? hk) hi, aimed_of_not_mem hc]

theorem Fulfils.perm (h : net.Fulfils values net') (hp : values.Perm order) : net.Fulfils order net' where
  recounts := h.recounts
  tallied := h.tallied
  set x hx := h.set x (hp.mem_iff.mpr hx)
  kept c hi hc := h.kept c hi fun hm => hc ((hp.map (·.1)).mem_iff.mp hm)

theorem Fulfils.unique (h : net.Fulfils values net') (h' : net.Fulfils values net'')
    (hb : net.Balanced) (ha : net.Acyclic) : net'' = net' := by
  refine h.tallied.eq_of_sources h'.tallied (h.recounts.symm.trans h'.recounts)
    (h.recounts.balanced hb) (h.recounts.acyclic ha) fun c hi => ?_
  rw [h.recounts.inputsOf] at hi
  by_cases hc : c ∈ values.map (·.1)
  · obtain ⟨x, hx, rfl⟩ := mem_map.mp hc
    rw [h.set x hx, h'.set x hx]
  · rw [h.kept c hi hc, h'.kept c hi hc]

theorem Fulfils.settled (h : net.Fulfils values net') (hs : net.Settled)
    (hv : ∀ x ∈ values, net.Settable x.1) : net'.Settled := by
  refine h.recounts.settled hs h.tallied fun c k hk hgate hi => ?_
  refine h.kept c (by rw [inputsOf_of_get? hk, hi]) fun hm => ?_
  obtain ⟨x, hx, rfl⟩ := mem_map.mp hm
  obtain ⟨k', hk', -, hg, -⟩ := hv x hx
  rw [hk] at hk'
  cases hk'
  rw [hg] at hgate
  cases hgate

end Fulfils

/-! ## The two evaluators -/

section Evaluators

variable {net : Network} {lv : Levels} {values : List (CompId × Bool)}

theorem setMany_depthFirst (net : Network) (lv : Levels) (values : List (CompId × Bool)) :
    (⟨net, .depthFirst, lv, none⟩ : SingleMachine).setMany values =
      (net.propagateEach values).map fun net' => ⟨net', .depthFirst, lv, none⟩ := by
  unfold SingleMachine.setMany propagateEach
  induction values generalizing net with
  | nil => rfl
  | cons x values ih =>
    have hset : SingleMachine.setDepthFirst ⟨net, .depthFirst, lv, none⟩ x.1 x.2 =
        (net.propagate x.1 x.2 >>= fun r => pure ⟨r.1, .depthFirst, lv, none⟩) := rfl
    dsimp only
    rw [foldlM_cons, foldlM_cons, hset]
    cases net.propagate x.1 x.2 with
    | error e => rfl
    | ok r => exact ih r.1

section

variable (hb : net.Balanced) (ha : net.Acyclic) (hs : net.Standard) (h : net.Tallied)
include hb ha hs h

theorem propagateEach_yields (hv : ∀ x ∈ values, net.Settable x.1) (hd : (values.map (·.1)).Nodup) :
    (net.propagateEach values).Yields (net.Fulfils values) := by
  obtain ⟨m, hm, hsets⟩ := SingleMachine.setMany_yields (m := ⟨net, .depthFirst, .new net, none⟩)
    hb ha hs h (SingleMachine.idle_new net) hv fun hst => by cases hst
  rw [setMany_depthFirst] at hm
  cases hp : net.propagateEach values with
  | error e =>
    rw [hp] at hm
    cases hm
  | ok net' =>
    rw [hp] at hm
    cases hm
    exact ⟨net', rfl, .of_aimed hsets.recounts hsets.tallied hv hd hsets.count⟩

theorem assign_yields (hidle : lv.Idle) (hv : ∀ x ∈ values, net.Settable x.1)
    (hd : (values.map (·.1)).Nodup) :
    (lv.assign net values).Yields fun r => net.Fulfils values r.1 ∧ r.2.Idle := by
  refine (Levels.set_run_yields hb ha hs h hidle hv hd).mono fun r hr => ?_
  obtain ⟨hrec, htal, hidle', hcount⟩ := hr
  exact ⟨.of_aimed hrec htal hv hd fun c hc hi => hcount c hi hc, hidle'⟩

end

/-- Settings of different components without inputs end in one network, depth first in any order as well
as level by level, whatever levels the components carry. It is the only one with right counts in which
what has no inputs counts what it was set to, or what it did before. -/
theorem evaluators_agree (hb : net.Balanced) (ha : net.Acyclic) (hs : net.Standard) (h : net.Tallied)
    (hv : ∀ x ∈ values, net.Settable x.1) (hd : (values.map (·.1)).Nodup) :
    ∃ net', (∀ order, values.Perm order → net.propagateEach order = .ok net') ∧
      (∀ (lv : Levels) order, lv.Idle → values.Perm order →
        ∃ lv', lv.assign net order = .ok (net', lv') ∧ lv'.Idle) ∧
      net.Fulfils values net' ∧ (net.Settled → net'.Settled) ∧
      ∀ net'', net.Fulfils values net'' → net'' = net' := by
  obtain ⟨net', hnet', hful⟩ := propagateEach_yields hb ha hs h hv hd
  have hv' : ∀ order, values.Perm order → ∀ x ∈ order, net.Settable x.1 :=
    fun order hp x hx => hv x (hp.mem_iff.mpr hx)
  have hd' : ∀ order, values.Perm order → (order.map (·.1)).Nodup :=
    fun order hp => (hp.map (·.1)).nodup_iff.mp hd
  refine ⟨net', fun order hp => ?_, fun lv order hidle hp => ?_, hful,
    fun hset => hful.settled hset hv, fun net'' h'' => hful.unique h'' hb ha⟩
  · obtain ⟨other, hother, ho⟩ := propagateEach_yields hb ha hs h (hv' order hp) (hd' order hp)
    rw [hother, hful.unique (ho.perm hp.symm) hb ha]
  · obtain ⟨⟨other, lv'⟩, hother, ho, hidle'⟩ :=
      assign_yields hb ha hs h hidle (hv' order hp) (hd' order hp)
    have hsame : other = net' := hful.unique (ho.perm hp.symm) hb ha
    exact ⟨lv', by rw [hother, hsame], hidle'⟩

end Evaluators

/-- The lamp is lit while the button is pressed, in either order and level by level. All components of
the lamp are at level 0. -/
theorem evaluators_agree_lamp :
    lamp.Tallied ∧ (∀ x ∈ [(0, true), (2, true)], lamp.Settable x.1) ∧
      ∃ net', lamp.propagateEach [(0, true), (2, true)] = .ok net' ∧
        lamp.propagateEach [(2, true), (0, true)] = .ok net' ∧
        (∃ lv', (Levels.new lamp).assign lamp [(0, true), (2, true)] = .ok (net', lv') ∧ lv'.Idle) ∧
        net'.countAt 0 = 1 ∧ net'.countAt 2 = 1 ∧ net'.Settled := by
  have hsettled : lamp.Settled := by decide
  have hv : ∀ x ∈ [((0 : CompId), true), (2, true)], lamp.Settable x.1 := by
    intro x hx
    rcases List.mem_pair.mp hx with rfl | rfl
    · exact ⟨_, rfl, rfl, rfl, .inl rfl⟩
    · exact ⟨_, rfl, rfl, rfl, .inl rfl⟩
  obtain ⟨net', hprop, hlevels, hful, hset, -⟩ := evaluators_agree
    lamp_balanced lamp_acyclic (by decide) hsettled.tallied hv (by decide)
  refine ⟨hsettled.tallied, hv, net', hprop _ (.refl _), hprop _ (.swap _ _ _),
    hlevels _ _ (SingleMachine.idle_new lamp) (.refl _), hful.set (0, true) (by simp),
    hful.set (2, true) (by simp), hset hsettled⟩

end Network

end GameNet
