import GameNet.Proofs.Machine

/-!
Calls on a machine, in any number and order.

`Call.told` answers a call from the bits of the bases alone and evaluates the network from scratch each
time. A machine, which only ever pushes changes through its network, gives the same answers.
-/

namespace GameNet

open List

inductive Call where
  | update (s : BaseState)
  | reset
  | next (legals : List CompId)

namespace Call

open Network

def answer (m : Machine) : Call → Checked (Option BaseState × Machine)
  | .update s => do return (none, ← m.update s)
  | .reset => do return (none, ← m.reset)
  | .next legals => do
    let (s, m) ← m.nextState legals
    return (some s, m)

def after (m : Machine) (call : Call) : Machine :=
  match call.answer m with
  | .ok (_, m) => m
  | .error _ => m

def going (net : Network) (bits : List Bool) (s : BaseState) :
    Checked (Option BaseState) × List Bool :=
  if s.size = net.bases.length then (.ok none, net.bitsOf s)
  else (.error (.play (.stateSize net.bases.length s.size)), bits)

/-- The answer to a call and the position afterwards, told from the position before it. Nothing is
remembered but the bits of the bases, and everything else is evaluated from scratch. -/
def told (net : Network) (bits : List Bool) : Call → Checked (Option BaseState) × List Bool
  | .update s => going net bits s
  | .reset => going net bits (.ofBools net.initialState)
  | .next legals => (legals.find? fun l => !net.offers bits l).elim
      (.ok (some (net.follow bits (net.chosen legals))), bits) fun l => (.error (net.unknownMove l), bits)

def inputs (net : Network) : Call → List CompId
  | .next legals => net.chosen legals
  | _ => []

def Apart (net : Network) (strategy : Strategy) (call : Call) : Prop :=
  strategy = .byLevel → (call.inputs net).Nodup

instance (net : Network) (strategy : Strategy) (call : Call) : Decidable (call.Apart net strategy) :=
  inferInstanceAs (Decidable (_ → _))

section

variable {net : Network} {bits : List Bool} {m : SingleMachine}

def Tracked (net : Network) (bits : List Bool) (m : SingleMachine) (call : Call) : Prop :=
  (call.answer (.single m)).map (·.1) = (call.told net bits).1 ∧
    ∃ m', call.after (.single m) = .single m' ∧ m'.strategy = m.strategy ∧
      SingleMachine.Showing net (call.told net bits).2 [] m'

theorem tracked_of_ok {s : Option BaseState} {call : Call} {m' : SingleMachine}
    (ha : call.answer (.single m) = .ok (s, .single m')) (ht : (call.told net bits).1 = .ok s)
    (hst : m'.strategy = m.strategy) (h : SingleMachine.Showing net (call.told net bits).2 [] m') :
    Tracked net bits m call := by
  refine ⟨by rw [ha, ht]; rfl, m', ?_, hst, h⟩
  rw [after, ha]

theorem tracked_of_error {e : Fault} {call : Call} (ha : call.answer (.single m) = .error e)
    (ht : call.told net bits = (.error e, bits)) (h : SingleMachine.Showing net bits [] m) :
    Tracked net bits m call := by
  refine ⟨by rw [ha, ht]; rfl, m, ?_, rfl, by rw [ht]; exact h⟩
  rw [after, ha]

theorem tracked_of_going (hp : net.Primed) (h : SingleMachine.Showing net bits [] m) {s : BaseState}
    {call : Call} (ha : call.answer (.single m) = do return (none, ← (Machine.single m).update s))
    (ht : call.told net bits = going net bits s) : Tracked net bits m call := by
  have hbases : m.net.bases = net.bases := by rw [h.same]; rfl
  have hup : (Machine.single m).update s = Machine.single <$> (do m.checkState s; m.setState s) := rfl
  rw [hup] at ha
  unfold SingleMachine.checkState at ha
  rw [hbases] at ha
  unfold going at ht
  by_cases hs : s.size = net.bases.length
  · obtain ⟨m', hm', hshow, hst⟩ := h.setState hp s
    rw [if_pos hs] at ha ht
    rw [hm'] at ha
    refine tracked_of_ok ha (by rw [ht]) hst ?_
    rw [ht]
    exact hshow
  · rw [if_neg hs] at ha ht
    exact tracked_of_error ha ht h

theorem tracked (hp : net.Primed) (h : SingleMachine.Showing net bits [] m) (call : Call)
    (hd : call.Apart net m.strategy) : Tracked net bits m call := by
  cases call with
  | update s => exact tracked_of_going hp h rfl rfl
  | reset =>
    have hinit : (Machine.single m).initialState = .ofBools net.initialState := by
      change BaseState.ofBools m.net.initialState = _
      rw [h.same]
      rfl
    refine tracked_of_going hp h (s := .ofBools net.initialState) ?_ rfl
    rw [← hinit]
    rfl
  | next legals =>
    have hnext := h.nextState hp fun hst => hd hst
    have htold : (Call.next legals).told net bits = (legals.find? fun l => !net.offers bits l).elim
      (.ok (some (net.follow bits (net.chosen legals))), bits)
      fun l => (.error (net.unknownMove l), bits) := rfl
    have hans : (Call.next legals).answer (.single m) =
        (m.nextState legals).map fun r => (some r.1, .single r.2) := by
      dsimp only [answer, Machine.nextState]
      cases m.nextState legals <;> rfl
    cases hfind : legals.find? fun l => !net.offers bits l with
    | some l =>
      rw [hfind] at hnext htold
      rw [Option.elim_some] at hnext
      rw [hnext] at hans
      exact tracked_of_error hans htold h
    | none =>
      rw [hfind] at hnext htold
      obtain ⟨⟨s, m'⟩, hm', rfl, hshow, hst⟩ := hnext
      rw [hm'] at hans
      refine tracked_of_ok hans (by rw [htold]; rfl) hst ?_
      rw [htold]
      exact hshow

theorem showing_foldl (hp : net.Primed) (calls : List Call) :
    ∀ {m : SingleMachine} {bits : List Bool}, SingleMachine.Showing net bits [] m →
      (∀ call ∈ calls, call.Apart net m.strategy) →
      ∃ m', calls.foldl after (.single m) = .single m' ∧ m'.strategy = m.strategy ∧
        SingleMachine.Showing net (calls.foldl (fun bits call => (call.told net bits).2) bits) [] m' := by
  induction calls with
  | nil => exact fun h _ => ⟨_, rfl, rfl, h⟩
  | cons call calls ih =>
    intro m bits h hd
    obtain ⟨-, m₁, hafter, hst, h₁⟩ := tracked hp h call (hd call mem_cons_self)
    obtain ⟨m', hfold, hst', h'⟩ := ih h₁ fun c hc => hst ▸ hd c (mem_cons_of_mem _ hc)
    refine ⟨m', ?_, hst'.trans hst, h'⟩
    rw [foldl_cons, hafter, hfold]

theorem length_told (net : Network) {bits : List Bool} (h : bits.length = net.bases.length)
    (call : Call) : (call.told net bits).2.length = net.bases.length := by
  have hgoing : ∀ s, (going net bits s).2.length = net.bases.length := by
    intro s
    unfold going
    split
    · rw [bitsOf, length_map, length_range]
    · exact h
  cases call with
  | update s => exact hgoing s
  | reset => exact hgoing _
  | next legals =>
    dsimp only [told]
    cases legals.find? fun l => !net.offers bits l
    · exact h
    · exact h

end

end Call

namespace Network

open SingleMachine

section Drift

variable {net : Network} {strategy : Strategy} {start : Checked SingleMachine}

theorem showing_start (hp : net.Playable) (hstart : start = SingleMachine.new net strategy ∨
      strategy = .depthFirst ∧ start = SingleMachine.recording net) :
    start.Yields fun m => Showing net (net.bitsOf (.ofBools net.initialState)) [] m ∧
      m.strategy = strategy := by
  rcases hstart with rfl | ⟨rfl, rfl⟩
  · exact new_yields hp.toPrimed strategy
  · exact .bind (new_yields hp.toPrimed .depthFirst) fun m h => .pure ⟨⟨h.1.same, h.1.idle⟩, h.2⟩

theorem leavesSet_evaluated (hl : net.LeavesSet) (bits : List Bool) : (net.evaluated bits []).LeavesSet := by
  intro c k' hk' hi
  obtain ⟨n, hk⟩ := (recounts_evaluated net bits []).symm.get? hk'
  rw [← countAt_of_get? hk', countAt_evaluated hk hi]
  cases hidx : net.bases.idxOf? c with
  | none =>
    rw [sourceCount_of_not_mem (idxOf?_eq_none_iff.mp hidx), countAt_of_get? hk]
    exact hl c _ hk hi
  | some i =>
    rw [sourceCount_of_base hidx]
    rcases countOf_cases (bits.getD i false) with h | h <;> rw [h] <;> decide

/-- However a machine is called, its network is the one evaluated from scratch in the state that was last
accepted, and so are its answers. Counting anew finds nothing to correct. -/
theorem evaluated_after_calls (hp : net.Playable) (hn : net.Narrow) (hl : net.LeavesSet)
    (hstart : start = SingleMachine.new net strategy ∨
      strategy = .depthFirst ∧ start = SingleMachine.recording net)
    (calls : List Call) (hd : ∀ call ∈ calls, call.Apart net strategy) :
    start.Yields fun m₀ =>
      let m := calls.foldl Call.after (.single m₀)
      let bits := calls.foldl (fun bits call => (call.told net bits).2)
        (net.bitsOf (.ofBools net.initialState))
      m.net = net.evaluated bits [] ∧ m.net.Settled ∧
        (∀ c k, m.net.get? c = some k → k.hasRole .input = true → k.count = 0 ∧ k.value = false) ∧
        m.currentState = .ok (.ofBools bits) ∧
        m.net.recount m.net.sinks true = .ok m.net ∧
        (∀ c, net.contains c = true → m.net.valueAt c = net.eval (net.reading bits []) c) ∧
        ∀ call : Call, call.Apart net strategy →
          (call.answer m).map (·.1) = (call.told net bits).1 := by
  refine (showing_start hp hstart).mono fun m₀ h₀ => ?_
  obtain ⟨h₀, rfl⟩ := h₀
  obtain ⟨m, hm, hst, h⟩ := Call.showing_foldl hp.toPrimed calls h₀ hd
  have hlen : (calls.foldl (fun bits call => (call.told net bits).2)
      (net.bitsOf (.ofBools net.initialState))).length = net.bases.length := by
    refine foldl_keeps (fun _ (bits : List Bool) => bits.length = net.bases.length)
      (fun call _ bits hb => Call.length_told net hb call) calls _ ?_
    rw [bitsOf, List.length_map, List.length_range]
  dsimp only
  rw [hm]
  generalize calls.foldl (fun bits call => (call.told net bits).2)
    (net.bitsOf (.ofBools net.initialState)) = bits at h hlen
  have hsame : m.net = net.evaluated bits [] := h.same
  have hev := recounts_evaluated net bits []
  have hsettled : m.net.Settled := hsame ▸ hp.settled_evaluated net.choosable_nil
  refine ⟨hsame, hsettled, fun c k hk hr => ?_, h.currentState hp.toPrimed hlen, ?_,
    fun c hc => h.valueAt hp.toPrimed net.choosable_nil hc, fun call hc => ?_⟩
  · change m.net.get? c = some k at hk
    rw [hsame] at hk
    obtain ⟨n, hk₀⟩ := hev.symm.get? hk
    obtain ⟨hi, h0⟩ := hp.input c _ hk₀ hr
    have hcount : k.count = 0 := by
      rw [← countAt_of_get? hk, countAt_evaluated hk₀ hi,
        sourceCount_of_not_mem (hp.not_mem_bases hk₀ hr), countAt_of_get? hk₀, h0]
      rfl
    have hstd := hev.standard hp.standard c k hk
    rw [hstd.value_of_plain (Component.isGate_of_hasRole hr), hcount]
    exact ⟨rfl, rfl⟩
  · exact recount_eq hsettled (hsame ▸ leavesSet_evaluated hl bits) (hsame ▸ hev.balanced hp.balanced)
      (hsame ▸ hev.narrow hn) (fun c hc => contains_of_mem_sinks hc) true
  · exact (Call.tracked hp.toPrimed h call (hst ▸ hc)).1

end Drift

theorem lamp_playable : lamp.Playable where
  balanced := lamp_balanced
  acyclic := lamp_acyclic
  standard := by decide
  settled := by decide
  bases_nodup := by decide
  base := by
    intro b hb
    rw [mem_singleton.mp hb]
    exact ⟨_, rfl, rfl, rfl, .inl rfl⟩
  input := forall_components.mpr (by decide)
  paired := paired_of_components (by decide)
  transition := by decide

/-- The lamp is lit, switched off by hand and asked for moves that it does not have. -/
theorem evaluated_after_calls_lamp : lamp.Playable ∧ lamp.Narrow ∧ lamp.LeavesSet ∧
    (SingleMachine.new lamp .byLevel).Yields fun m₀ =>
      let m := [.next [3], .update (.ofBools [true]), .next [3], .next [2], .reset, .next [3]].foldl
        Call.after (.single m₀)
      m.net = lamp.evaluated [false] [] ∧ m.currentState = .ok (.ofBools [false]) ∧
        m.net.recount m.net.sinks true = .ok m.net ∧
        ((Call.next [3]).answer m).map (·.1) = .ok (some (.ofBools [true])) := by
  refine ⟨lamp_playable, by decide, by decide, ?_⟩
  have hd : ∀ call ∈ [Call.next [3], .update (.ofBools [true]), .next [3], .next [2], .reset, .next [3]],
      call.Apart lamp .byLevel := by decide
  refine (evaluated_after_calls lamp_playable (by decide) (by decide) (.inl rfl) _ hd).mono
    fun m₀ h => ?_
  obtain ⟨hnet, -, -, hcur, hcount, -, hans⟩ := h
  exact ⟨hnet, hcur, hcount, hans (.next [3]) (by decide)⟩

def sharedButton : Network :=
  let press := Term.atom "press"
  let prop (role : PropRole) : Proposition := { role, term := press }
  { roles := ["hand"]
    slots := #[
      some { kind := .proposition { prop .input with pairedLegal := some 2 }, outputs := [1] },
      some { kind := .proposition (prop .terminal), inputs := [0] },
      some { kind := .proposition { prop .legal with pairedInput := some 0 }, count := 1 },
      some { kind := .proposition { prop .legal with pairedInput := some 0 }, count := 1 }]
    inputs := [0], terminal := 1
    players := [{ name := "hand", inputs := [0], legals := [2, 3] }] }

theorem sharedButton_playable : sharedButton.Playable where
  balanced := by decide
  acyclic := by
    have h : sharedButton.Ranked fun c => if c = 1 then 1 else 0 := by decide
    exact h.acyclic
  standard := by decide
  settled := by decide
  bases_nodup := by decide
  base := forall_mem_nil _
  input := forall_components.mpr (by decide)
  paired := paired_of_components (by decide)
  transition := by decide

/-- Level by level, choosing both moves at once queues the button twice, and its count is lost. -/
theorem shared_input_unsettles : sharedButton.Playable ∧ sharedButton.Narrow ∧
    sharedButton.LeavesSet ∧ [2, 3].Nodup ∧ (SingleMachine.new sharedButton .byLevel).Yields fun m =>
      ((Call.next [2, 3]).answer (.single m)).isOk = true ∧
        ¬ ((Call.next [2, 3]).after (.single m)).net.Settled :=
  ⟨sharedButton_playable, by decide, by decide, by decide, _, rfl, rfl, by decide⟩

end Network

end GameNet
