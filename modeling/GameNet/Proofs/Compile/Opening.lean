import GameNet.Proofs.Compile.Initial
import GameNet.Proofs.Eval.Direct

/-!
The initial state is what the transitions read at the outset.

The values at the outset depend only on the components without inputs, of which all are off but init, the
constants, and what keeps a count of its own.
-/

namespace GameNet.Network

open List

/-- The count of a component without inputs at the outset: that of init as it is switched, none for
other propositions, the sign of a constant, and what the component holds if it is anything else. An AND
or an OR has nothing to count. -/
def outsetCount (init : CompId) (on : Bool) (c : CompId) (k : Component) : Int :=
  if c = init then countOf on
  else
    match k.op with
    | .proposition | .and | .or => 0
    | .constant => if 0 < k.count then 1 else 0
    | .not | .transition => if k.count = unset then 0 else k.count

def outset (net : Network) (init : CompId) (on : Bool) (c : CompId) : Bool :=
  (net.get? c).elim false fun k => (k.counting (outsetCount init on c k)).idleValue

def outsetTally (net : Network) (init : CompId) (on : Bool) (c : CompId) : Int :=
  (net.get? c).elim 0 fun k =>
    if k.inputs = [] then outsetCount init on c k
    else (k.inputs.countP (net.eval (net.outset init on)) : Nat)

/-! ## Right counts -/

section Outset

variable {net net' : Network} {init c : CompId} {k : Component} {on : Bool}

theorem contains_of_connected (hc : net.inputsOf c ≠ [] ∨ net.outputsOf c ≠ []) : net.contains c := by
  rcases hc with hi | ho
  · exact contains_of_fed hi
  · exact contains_of_read ho

/-- Right counts are those of the evaluation, if they are so where nothing is counted. What has no edges
at all is read by nothing, so its value is of no importance to the others. -/
theorem Tallied.valueAt_eq_eval (h : net'.Tallied) (hr : Recounts net net') (hb : net.Balanced)
    (ha : net.Acyclic) (hstd : net.Standard) {σ : CompId → Bool}
    (hσ : ∀ c, net.inputsOf c = [] → net.outputsOf c ≠ [] → net'.valueAt c = σ c)
    (hc : net.inputsOf c ≠ [] ∨ net.outputsOf c ≠ []) : net'.valueAt c = net.eval σ c := by
  -- an AND or OR without edges may hold any count, so its value is not that of the evaluation
  let v : CompId → Bool := fun d =>
    if net.inputsOf d = [] ∧ net.outputsOf d = [] then σ d else net'.valueAt d
  have hread : ∀ d, net.inputsOf d ≠ [] ∨ net.outputsOf d ≠ [] → v d = net'.valueAt d := fun d hd =>
    if_neg fun h => hd.elim (· h.1) (· h.2)
  have hobeys : net.Obeys v := by
    intro d op hop hi
    have hv := h.obeys (hr.standard hstd) d op ((hr.op? d).trans hop) (by rwa [hr.inputsOf])
    rw [hr.inputsOf] at hv
    rw [hread d (.inl hi), hv]
    refine Op.read_of_forall_eq _ fun a had => (hread a (.inr ?_)).symm
    exact ne_nil_of_mem (hb.mem_iff.mpr had)
  rw [← hread c hc]
  refine hobeys.eq_eval hb ha (fun d _ hi => ?_) c (contains_of_connected hc)
  by_cases ho : net.outputsOf d = []
  · exact if_pos ⟨hi, ho⟩
  · rw [hread d (.inr ho), hσ d hi ho]

theorem outsetCount_of_gate (hop : net.op? init = some .proposition) (hk : net.get? c = some k)
    (hgate : k.op = .and ∨ k.op = .or) (on : Bool) : outsetCount init on c k = 0 := by
  have hne : c ≠ init := by
    rintro rfl
    rw [op?_of_get? hk, Option.some.injEq] at hop
    rw [hop] at hgate
    exact hgate.elim (fun h => by cases h) fun h => by cases h
  rw [outsetCount, if_neg hne]
  rcases hgate with h | h <;> rw [h]

theorem valueAt_eq_outset (hr : Recounts net net') (hstd : net.Standard)
    (hop : net.op? init = some .proposition) (hk : net.get? c = some k) (hi : k.inputs = [])
    (hcount : net'.countAt c = outsetCount init on c k) : net'.valueAt c = net.outset init on c := by
  obtain ⟨n, hk'⟩ := hr.get? hk
  rw [countAt_of_get? hk'] at hcount
  have hn : n = outsetCount init on c k := hcount
  rw [valueAt_of_get? hk', outset, hk, Option.elim_some, hn]
  refine ((hstd c k hk).counting (outsetCount init on c k)).value_of_idle hi ?_
  split
  · rfl
  next hleaf =>
  -- only an AND or an OR without inputs is no leaf, and init is neither
  have hgate : k.op = .and ∨ k.op = .or := by
    by_contra hnot
    exact hleaf ⟨hi, not_or.mp hnot⟩
  exact outsetCount_of_gate hop hk hgate on

theorem Tallied.countAt_eq_outset (h : net'.Tallied) (hr : Recounts net net') (hb : net.Balanced)
    (ha : net.Acyclic) (hstd : net.Standard) (hop : net.op? init = some .proposition)
    (hsource : ∀ c k, net.get? c = some k → k.inputs = [] → k.outputs ≠ [] →
      net'.countAt c = outsetCount init on c k) (hc : net.inputsOf c ≠ [] ∨ net.outputsOf c ≠ []) :
    net'.countAt c = net.outsetTally init on c ∧ net'.valueAt c = net.eval (net.outset init on) c := by
  have hvalue : ∀ d, net.inputsOf d ≠ [] ∨ net.outputsOf d ≠ [] →
      net'.valueAt d = net.eval (net.outset init on) d := fun d hd => by
    refine h.valueAt_eq_eval hr hb ha hstd (fun e hi ho => ?_) hd
    obtain ⟨k, hk⟩ := contains_iff.mp (contains_of_connected (.inr ho))
    rw [inputsOf_of_get? hk] at hi
    rw [outputsOf_of_get? hk] at ho
    exact valueAt_eq_outset hr hstd hop hk hi (hsource e k hk hi ho)
  refine ⟨?_, hvalue c hc⟩
  obtain ⟨k, hk⟩ := contains_iff.mp (contains_of_connected hc)
  rw [outsetTally, hk, Option.elim_some]
  rw [inputsOf_of_get? hk, outputsOf_of_get? hk] at hc
  split
  · next hi => exact hsource c k hk hi (hc.resolve_left (not_not.mpr hi))
  next hi =>
  obtain ⟨n, hk'⟩ := hr.get? hk
  rw [countAt_of_get? hk', h c _ hk' hi]
  refine congrArg Nat.cast (countP_congr fun a hac => ?_)
  have hca : c ∈ net.outputsOf a := hb.mem_iff.mpr (by rwa [inputsOf_of_get? hk])
  rw [hvalue a (.inr (ne_nil_of_mem hca))]

end Outset

/-! ## Deriving the initial state -/

section Derive

variable {net net' : Network} {init c : CompId} {k : Component}

theorem count_seedCount (hi : k.inputs = []) (hand : k.op ≠ .and) (hor : k.op ≠ .or) (on : Bool)
    (hne : c ≠ init) : (seedCount k).count = outsetCount init on c k := by
  rw [outsetCount, if_neg hne, seedCount]
  cases hop : k.op with
  | and => exact absurd hop hand
  | or => exact absurd hop hor
  | proposition => simp [hi]
  | constant => rfl
  | not | transition =>
    dsimp only
    split <;> rfl

theorem count_seedCount_ne_unset (k : Component) : (seedCount k).count ≠ unset := by
  unfold seedCount unset
  split
  · dsimp only
    split <;> decide
  · split
    · exact (by decide : (0 : Int) ≠ -1)
    · next hnot => simp_all
  · split
    · exact (by decide : (0 : Int) ≠ -1)
    · next hnot => exact hnot

theorem update_opening (hop : net.op? init = some .proposition) :
    (net.mapComponents seedCount).update init (fun k => { k with count := 1 }) =
      .ok (net.opening init) := by
  obtain ⟨k, hk⟩ := contains_iff.mp (contains_of_op? hop)
  have hlive : (net.mapComponents seedCount).contains init = true :=
    contains_of_get? (by rw [get?_mapComponents, hk]; rfl)
  exact update_of_contains hlive _

theorem countable_opening (hn : net.Narrow) (init : CompId) : Recount.Countable (net.opening init) := by
  intro c k' hk' hand hor
  have hr := recounts_opening net init
  obtain ⟨n, hk⟩ := hr.symm.get? hk'
  refine ⟨fun _ => ?_, fun _ => ((hr.narrow hn) c k' hk').1 hand hor⟩
  rw [← countAt_of_get? hk', countAt_opening hk]
  split
  · decide
  · exact count_seedCount_ne_unset _

theorem Counted.countAt_source (h : Counted net init net') (hop : net.op? init = some .proposition)
    (hk : net.get? c = some k) (hi : k.inputs = []) (hgate : k.op = .and ∨ k.op = .or → k.outputs ≠ []) :
    net'.countAt c = outsetCount init true c k := by
  by_cases hlat : k.op = .and ∨ k.op = .or
  · rw [h.rest c k hk hi hlat (hgate hlat), outsetCount_of_gate hop hk hlat]
  obtain ⟨hand, hor⟩ := not_or.mp hlat
  rw [h.source c k hk hi hand hor]
  split
  · next heq =>
    rw [outsetCount, if_pos heq]
    rfl
  · next hne => exact count_seedCount hi hand hor true hne

section

variable (h : Counted net init net') (hb : net.Balanced) (ha : net.Acyclic) (hstd : net.Standard)
  (htal : net'.Tallied) (hop : net.op? init = some .proposition)
include h hb ha hstd htal hop

theorem Counted.valueAt_transition (hc : net.op? c = some .transition) :
    net'.valueAt c = net.eval (net.outset init true) c := by
  obtain ⟨k, hk, hkop⟩ := Option.map_eq_some_iff.mp hc
  by_cases hi : k.inputs = []
  · -- a transition that nothing drives has the value that it holds
    rw [eval_of_source _ ((inputsOf_of_get? hk).trans hi)]
    refine valueAt_eq_outset h.recounts hstd hop hk hi (h.countAt_source hop hk hi fun hgate => ?_)
    rw [hkop] at hgate
    exact hgate.elim (fun h => by cases h) fun h => by cases h
  · refine (htal.countAt_eq_outset h.recounts hb ha hstd hop (fun d k hk hi ho => ?_) (.inl ?_)).2
    · exact h.countAt_source hop hk hi fun _ => ho
    · rwa [inputsOf_of_get? hk]

/-- Init is off, and all is counted: what the network is like once the initial state is derived. -/
theorem propagate_outset (hi : net.inputsOf init = []) (bits : List Bool) :
    (Network.propagate { net' with initialState := bits } init false).Yields fun r =>
      Recounts { net with initialState := bits } r.1 ∧
        ∀ c, net.inputsOf c ≠ [] ∨ net.outputsOf c ≠ [] → r.1.countAt c = net.outsetTally init false c := by
  have hr : Recounts { net with initialState := bits } { net' with initialState := bits } :=
    h.recounts.withState bits
  obtain ⟨k', hk', hnil, hg, hone⟩ := h.init_on hop hi
  have hset : Settable { net' with initialState := bits } init := ⟨k', hk', hnil, hg, .inr hone⟩
  refine (propagate_yields (hr.balanced hb) (hr.acyclic ha) (hr.standard hstd) htal hset).mono
    fun r hr' => ?_
  obtain ⟨hr', htal', hcount⟩ := hr'
  have hall := hr.trans hr'
  refine ⟨hall, fun c hc => ?_⟩
  -- the initial state has no part in the counts
  have hback : Recounts net { r.1 with initialState := net.initialState } := hall.withState net.initialState
  have htal'' : Tallied { r.1 with initialState := net.initialState } := htal'
  refine (htal''.countAt_eq_outset hback hb ha hstd hop (fun d k hk hki ho => ?_) hc).1
  refine (hcount d ((hr.inputsOf d).trans ((inputsOf_of_get? hk).trans hki))).trans ?_
  by_cases hd : d = init
  · rw [if_pos hd, outsetCount, if_pos hd]
  rw [if_neg hd]
  refine (h.countAt_source hop hk hki fun _ => ho).trans ?_
  rw [outsetCount, outsetCount, if_neg hd, if_neg hd]

end

end Derive

/-- The initial state can be derived whatever counts the network holds. It is what the transitions read
at the outset with init on. Afterwards, whatever has an edge counts what there is to count with init off.
Nothing but counts and the initial state has changed. -/
theorem deriveInitialState_evaluates (net : Network) (init : CompId) (hb : net.Balanced)
    (ha : net.Acyclic) (hstd : net.Standard) (hn : net.Narrow)
    (htrans : ∀ t, net.op? t = some .transition → net.outputsOf t = [])
    (hlist : ∀ t ∈ net.transitions, net.op? t = some .transition) (hinit : net.init = some init)
    (hop : net.op? init = some .proposition) (hi : net.inputsOf init = []) :
    ∃ net', net.deriveInitialState = .ok net' ∧
      net'.initialState = net.transitions.map (net.eval (net.outset init true)) ∧
      (∀ c, net.inputsOf c ≠ [] ∨ net.outputsOf c ≠ [] → net'.countAt c = net.outsetTally init false c) ∧
      Recounts { net with initialState := net'.initialState } net' := by
  have hr₁ := recounts_opening net init
  have hb₁ := hr₁.balanced hb
  have ha₁ := hr₁.acyclic ha
  -- all is counted with init on
  obtain ⟨net₂, hcount, hrec⟩ := recount_yields hb₁ ha₁ (countable_opening hn init)
    fun _ => contains_of_mem_sinks
  have hcounted := counted_of_recounted hb ha htrans hrec
  have htal : net₂.Tallied := hcounted.tallied fun c hc => by
    obtain ⟨k, hk, hkop⟩ := Option.map_eq_some_iff.mp hc
    exact (inputsOf_of_get? hk).trans ((hn c k hk).2 hkop)
  have hlist₂ : net₂.transitions = net.transitions :=
    field_of_parts Network.transitions hcounted.recounts.parts
  -- the transitions are read
  have hbits : (net₂.transitions.mapM fun t => do return (← net₂.get t).value : Checked (List Bool)) =
      .ok (net.transitions.map (net.eval (net.outset init true))) := by
    rw [hlist₂]
    refine Checked.mapM_yields _ fun t ht => ?_
    rw [← hcounted.valueAt_transition hb ha hstd htal hop (hlist t ht)]
    obtain ⟨k, hk⟩ := contains_iff.mp
      ((hcounted.recounts.contains t).trans (contains_of_op? (hlist t ht)))
    rw [get_of_get? hk, valueAt_of_get? hk]
    rfl
  -- init is switched off, and the counts follow
  obtain ⟨⟨net', n⟩, hoff, hr, htally⟩ := propagate_outset hcounted hb ha hstd htal hop hi
    (net.transitions.map (net.eval (net.outset init true)))
  have hstate : net'.initialState = net.transitions.map (net.eval (net.outset init true)) :=
    field_of_parts Network.initialState hr.parts
  have hrun : net.deriveInitialState.Yields (· = net') := by
    unfold deriveInitialState
    rw [hinit]
    exact .bind_ok (update_opening hop) (.bind_ok hcount (.bind_ok hbits (.bind_ok hoff (.pure rfl))))
  obtain ⟨_, hrun, rfl⟩ := hrun
  exact ⟨_, hrun, hstate, htally, hstate ▸ hr⟩

/-- A spark that is there in the beginning only and lights a fire, with counts left over from who knows
where. Nothing drives the NOT at 5 or the transition at 8, and the AND at 9 has no edges at all. -/
def kindling : Network :=
  let prop (role : PropRole) (text : String) : Kind := .proposition { role, term := .atom text }
  { roles := []
    slots := #[
      some { kind := prop .init "spark", outputs := [2, 3], count := 7 },
      some { kind := prop .base "fire", outputs := [4], count := 5 },
      some { kind := .not, inputs := [0], outputs := [4], count := unset, sign := -1 },
      some { kind := .and, inputs := [0, 5], outputs := [6], count := -3, reqTrue := 2, reqFalse := 1 },
      some { kind := .or, inputs := [1, 2], outputs := [7], count := 4 },
      some { kind := .not, outputs := [3], count := unset, sign := -1 },
      some { kind := .transition (some 1), inputs := [3], count := unset },
      some { kind := prop .terminal "over", inputs := [4] },
      some { kind := .transition none, count := 2 },
      some { kind := .and, count := 9, reqTrue := 0, reqFalse := -1 }]
    bases := [1], transitions := [6, 8], terminal := 7, init := some 0 }

/-- The spark lights the fire, and then it is gone from every count. -/
theorem deriveInitialState_evaluates_kindling :
    kindling.Balanced ∧ kindling.Acyclic ∧ kindling.Standard ∧ kindling.Narrow ∧
      ∃ net', kindling.deriveInitialState = .ok net' ∧ net'.initialState = [true, true] ∧
        net'.countAt 0 = 0 ∧ net'.countAt 1 = 0 ∧ net'.countAt 3 = 1 ∧ net'.countAt 4 = 1 ∧
        net'.countAt 5 = 0 ∧ net'.countAt 6 = 0 := by
  have hb : kindling.Balanced := by decide
  have hr : kindling.Ranked fun c => [0, 0, 1, 1, 2, 0, 2, 3].getD c 0 := by decide
  have hstd : kindling.Standard := by decide
  have hn : kindling.Narrow := by decide
  have htrans : ∀ t, kindling.op? t = some .transition → kindling.outputsOf t = [] := by
    intro t ht
    obtain ⟨k, hk, hop⟩ := Option.map_eq_some_iff.mp ht
    have hall : ∀ x ∈ kindling.components, x.2.op = .transition → x.2.outputs = [] := by decide
    exact (outputsOf_of_get? hk).trans (hall (t, k) (mem_components.mpr hk) hop)
  obtain ⟨net', hrun, hstate, hcount, -⟩ := deriveInitialState_evaluates kindling 0 hb hr.acyclic hstd hn
    htrans (by decide) rfl rfl rfl
  have hstate : net'.initialState = [true, true] := hstate.trans (by decide)
  refine ⟨hb, hr.acyclic, hstd, hn, net', hrun, hstate, ?_, ?_, ?_, ?_, ?_, ?_⟩
  · exact (hcount 0 (.inr (by decide))).trans (by decide)
  · exact (hcount 1 (.inr (by decide))).trans (by decide)
  · exact (hcount 3 (.inl (by decide))).trans (by decide)
  · exact (hcount 4 (.inl (by decide))).trans (by decide)
  · exact (hcount 5 (.inr (by decide))).trans (by decide)
  · exact (hcount 6 (.inl (by decide))).trans (by decide)

end GameNet.Network
