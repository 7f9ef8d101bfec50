import GameNet.Proofs.Variants.Combined
import GameNet.Proofs.Variants.Switching

/-!
What a machine over several networks remembers.

The parts that do not play, and the machine for the goals, keep the counts of states that were left long
ago. Each is set anew before it is asked, so every reply can be told from the state that was accepted
last.
-/

namespace GameNet

open List

namespace Network

variable {controls : List CompId} {nets : List Network}

def verdict (net : Network) (controls : List CompId) (s : BaseState) : Checked Unit :=
  if s.size = net.bases.length then net.soleControl controls s
  else .error (.play (.stateSize net.bases.length s.size))

def stateAfter (net : Network) (controls : List CompId) (s : BaseState) : Request → BaseState
  | .call (.update s') => if (net.verdict controls s').isOk then s' else s
  | .call .reset =>
    if (net.verdict controls (.ofBools net.initialState)).isOk then .ofBools net.initialState else s
  | _ => s

def Assigned (controls : List CompId) (nets : List Network) (b : CompId) (part : Network) : Prop :=
  ∃ k : Nat, controls[k]? = some b ∧ nets[k]? = some part

theorem assigned_of_forall₂ {R : CompId → Network → Prop} (h : List.Forall₂ R controls nets) :
    List.Forall₂ (fun b part => Assigned controls nets b part ∧ R b part) controls nets := by
  induction h with
  | nil => exact .nil
  | cons hR _ ih =>
    refine .cons ⟨⟨0, rfl, rfl⟩, hR⟩ (ih.imp fun b part hof => ⟨?_, hof.2⟩)
    obtain ⟨k, hb, hpart⟩ := hof.1
    exact ⟨k + 1, hb, hpart⟩

theorem getElem?_inj_of_filter {α : Type} {p : α → Bool} {as : List α} {a : α}
    (h : as.filter p = [a]) {i j : Nat} (hi : as[i]? = some a) (hj : as[j]? = some a) : i = j := by
  have hp : p a = true := (mem_filter.mp (h ▸ mem_singleton_self a)).2
  induction as generalizing i j with
  | nil => simp at hi
  | cons x as ih =>
    by_cases hx : p x = true
    · -- then `x` is it, and it does not come again
      rw [filter_cons_of_pos hx, List.cons.injEq] at h
      have hnot : a ∉ as := fun hmem => by
        have hmem' : a ∈ as.filter p := mem_filter.mpr ⟨hmem, hp⟩
        rw [h.2] at hmem'
        cases hmem'
      cases i with
      | succ i =>
        rw [getElem?_cons_succ] at hi
        exact absurd (mem_of_getElem? hi) hnot
      | zero =>
        cases j with
        | succ j =>
          rw [getElem?_cons_succ] at hj
          exact absurd (mem_of_getElem? hj) hnot
        | zero => rfl
    · rw [filter_cons_of_neg hx] at h
      have hne : x ≠ a := by
        rintro rfl
        exact hx hp
      cases i with
      | zero => exact absurd (Option.some.inj hi) hne
      | succ i =>
        cases j with
        | zero => exact absurd (Option.some.inj hj) hne
        | succ j => rw [ih h hi hj]

def PartFor (net : Network) (controls : List CompId) (nets : List Network) (s : BaseState) (k : Nat)
    (part : Network) : Prop :=
  ∃ b, net.controlsOn controls s = [b] ∧ controls[k]? = some b ∧ nets[k]? = some part

theorem Assigned.partFor {net part : Network} {s : BaseState}
    {b : CompId} {k : Nat} (h : Assigned controls nets b part) (hb : controls[k]? = some b)
    (hon : net.controlsOn controls s = [b]) : net.PartFor controls nets s k part := by
  obtain ⟨j, hj, hpart⟩ := h
  obtain rfl : j = k := getElem?_inj_of_filter hon hj hb
  exact ⟨b, hon, hj, hpart⟩

theorem PartFor.unique {net : Network} {s : BaseState}
    {k k' : Nat} {part part' : Network} (h : net.PartFor controls nets s k part)
    (h' : net.PartFor controls nets s k' part') : k = k' ∧ part = part' := by
  obtain ⟨b, hon, hb, hpart⟩ := h
  obtain ⟨b', hon', hb', hpart'⟩ := h'
  obtain rfl : b = b' := (List.cons.inj (hon.symm.trans hon')).1
  obtain rfl : k = k' := getElem?_inj_of_filter hon hb hb'
  exact ⟨rfl, Option.some.inj (hpart.symm.trans hpart')⟩

end Network

/-! ## Checks -/

namespace CombinedMachine

open Network

section Checks

variable {Fits : CompId → Network → Prop} {net : Network} {controls : List CompId} {m : CombinedMachine}
  {s : BaseState}

theorem Parted.checks_update (h : Parted Fits net controls m) (hsub : ∀ b ∈ controls, b ∈ net.bases)
    (s : BaseState) : m.checks (.call (.update s)) = net.verdict controls s := by
  rw [checks, SingleMachine.checkState, verdict, h.bases]
  split
  · rcases h.select hsub s with ⟨k, b, hsel, -, -, hsole⟩ | ⟨e, hsel, hsole⟩
    · rw [hsel, hsole]
      rfl
    · rw [hsel, hsole]
      rfl
  · rfl

theorem Parted.update_verdict (h : Parted Fits net controls m) (hsub : ∀ b ∈ controls, b ∈ net.bases)
    (s : BaseState) : (m.update s).map (fun _ => ()) = net.verdict controls s ∧
      ∀ m', m.update s = .ok m' → Standing Fits net controls s m' ∧ m'.goals = m.goals := by
  by_cases hs : s.size = net.bases.length
  · rw [verdict, if_pos hs]
    exact h.update hsub hs
  have hup : m.update s = .error (.play (.stateSize net.bases.length s.size)) := by
    rw [CombinedMachine.update, SingleMachine.checkState, h.bases, if_neg hs]
    rfl
  rw [hup, verdict, if_neg hs]
  exact ⟨rfl, fun _ h => (by cases h)⟩

theorem initialState_of_parted (h : Parted Fits net controls m) :
    (Machine.combined m).initialState = .ofBools net.initialState := by
  obtain ⟨part, hpart, hcur⟩ := getElem?_current h.active
  obtain ⟨b, net', -, -, hseat, -, bits, hshow⟩ := h.fits _ part hpart
  change BaseState.ofBools m.current.net.initialState = _
  rw [hcur, hshow.same]
  exact congrArg BaseState.ofBools hseat.start

end Checks

/-! ## Replies from the state alone -/

/-- The reply in a state, told from the state, the network of the part for it, and the network for the
goals. -/
def tell (net : Network) (controls : List CompId) (goals : Option Network) (part : Network)
    (s : BaseState) : Request → Checked Reply
  | .call (.update s') => (net.verdict controls s').map fun _ => .state none
  | .call .reset => (net.verdict controls (.ofBools net.initialState)).map fun _ => .state none
  | .goalValue role =>
    let scorer := goals.getD part
    .ok (.goal (scorer.goalIn (scorer.bitsOf s) role))
  | .currentState => .ok (.state (some s))
  | r => (r.told part (net.bitsOf s)).1

section Tell

variable {net : Network} {controls : List CompId} {nets : List Network} {goals : Option Network}
  {m m' : CombinedMachine} {s : BaseState}

theorem Standing.withGoals (h : Standing (Assigned controls nets) net controls s m)
    (machine : Option SingleMachine) :
    Standing (Assigned controls nets) net controls s { m with goals := machine } :=
  ⟨⟨h.size, h.fits, h.active⟩, h.now, h.state⟩

structure Tracked (net : Network) (controls : List CompId) (nets : List Network) (goals : Option Network)
    (s : BaseState) (m : CombinedMachine) (r : Request) (part : Network) : Prop where
  reply : ((Machine.combined m).ask r).map (·.1) = tell net controls goals part s r
  checked : ((Machine.combined m).ask r).map (fun _ => ()) = m.checks r
  next : ∃ m', (Machine.combined m).asked r = .combined m' ∧
    Standing (Assigned controls nets) net controls (net.stateAfter controls s r) m' ∧ Scored goals m'

theorem Standing.going (h : Standing (Assigned controls nets) net controls s m) (hscored : Scored goals m)
    (hsub : ∀ b ∈ controls, b ∈ net.bases) (s' : BaseState) (c : Call)
    (ha : c.answer (.combined m) = do return (none, ← (Machine.combined m).update s')) :
    ((Machine.combined m).ask (.call c)).map (·.1) =
        (net.verdict controls s').map (fun _ => Reply.state none) ∧
      ((Machine.combined m).ask (.call c)).map (fun _ => ()) = net.verdict controls s' ∧
      ∃ m', (Machine.combined m).asked (.call c) = .combined m' ∧
        Standing (Assigned controls nets) net controls
          (if (net.verdict controls s').isOk then s' else s) m' ∧ Scored goals m' := by
  obtain ⟨hverdict, hnext⟩ := h.toParted.update_verdict hsub s'
  rw [Machine.asked, Machine.ask, ha]
  dsimp only [Machine.update]
  cases hup : m.update s' with
  | error e =>
    rw [hup] at hverdict
    rw [← hverdict]
    exact ⟨rfl, rfl, m, rfl, h, hscored⟩
  | ok m' =>
    rw [hup] at hverdict
    rw [← hverdict]
    obtain ⟨hstands, hgoals⟩ := hnext m' hup
    refine ⟨rfl, rfl, m', rfl, hstands, ?_⟩
    rw [Scored, hgoals]
    exact hscored

theorem Standing.next (h : Standing (Assigned controls nets) net controls s m) (hscored : Scored goals m)
    {b : CompId} {part : Network} (hb : controls[m.active]? = some b) (hof : Assigned controls nets b part)
    (hseat : Seat net b part) (hon : net.controlsOn controls s = [b])
    (hshow : SingleMachine.Showing part (net.bitsOf s) [] m.current) {legals : List CompId}
    (hd : Request.Distinct (.call (.next legals))) :
    Tracked net controls nets goals s m (.call (.next legals)) part := by
  have hprimed := hseat.finished.primed
  have hnext := hshow.nextState hprimed (hd.apart hseat.finished.formed.toCast m.current.strategy :)
  have hinputs := Checked.mapM_eq_find legals fun l _ => hshow.inputOf hprimed l
  have hask : (Machine.combined m).ask (.call (.next legals)) = (m.current.nextState legals).map fun x =>
      (Reply.state (some x.1),
        Machine.combined { m with parts := m.parts.modify m.active ({ · with machine := x.2 }) }) := by
    dsimp only [Machine.ask, Call.answer, Machine.nextState, CombinedMachine.nextState]
    cases m.current.nextState legals <;> rfl
  have htell : tell net controls goals part s (.call (.next legals)) =
      (legals.find? fun l => !part.offers (net.bitsOf s) l).elim
        (.ok (.state (some (part.follow (net.bitsOf s) (part.chosen legals))))) fun l =>
          .error (part.unknownMove l) := by
    dsimp only [tell, Request.told, Call.told]
    cases legals.find? fun l => !part.offers (net.bitsOf s) l <;> rfl
  cases hfind : legals.find? fun l => !part.offers (net.bitsOf s) l with
  | some l =>
    rw [hfind, Option.elim_some] at hnext hinputs htell
    rw [hnext] at hask
    refine ⟨by rw [hask, htell]; rfl, ?_, m, ?_, h, hscored⟩
    · rw [hask, checks, hinputs]
      rfl
    · rw [Machine.asked, hask]
      rfl
  | none =>
    rw [hfind, Option.elim_none] at hnext hinputs htell
    obtain ⟨⟨s', machine⟩, hm', hs', hshow', -⟩ := hnext
    rw [hm'] at hask
    obtain ⟨hparted, hcur⟩ := h.toParted.setPart hb hof hseat hshow' m.state
    refine ⟨?_, ?_, { m with parts := m.parts.modify m.active ({ · with machine }) }, ?_,
      ⟨hparted, ⟨b, part, hb, hof, hseat, hon, hcur.symm ▸ hshow'⟩, h.state⟩, hscored⟩
    · rw [hask, htell, ← hs']
      rfl
    · rw [hask, checks, hinputs]
      rfl
    · rw [Machine.asked, hask]
      rfl

theorem Standing.tracked (h : Standing (Assigned controls nets) net controls s m)
    (hscored : Scored goals m) (hsub : ∀ b ∈ controls, b ∈ net.bases)
    (hgoals : ∀ g ∈ goals, g.Finished) {r : Request} (hd : r.Distinct) :
    ∃ part, net.PartFor controls nets s m.active part ∧ Tracked net controls nets goals s m r part := by
  obtain ⟨b, part, hb, hof, hseat, hon, hshow⟩ := h.now
  have hprimed := hseat.finished.primed
  have hcast := hseat.finished.formed.toCast
  refine ⟨part, hof.partFor hb hon, ?_⟩
  -- a request that is answered with the machine as it is
  have hstay : ∀ r reply, (Machine.combined m).ask r = .ok (reply, .combined m) →
      tell net controls goals part s r = .ok reply → m.checks r = .ok () →
      net.stateAfter controls s r = s → Tracked net controls nets goals s m r part := by
    intro r reply hask htell hchecks hstate
    obtain ⟨hreply, hasked⟩ := Machine.asked_of_ask hask
    exact ⟨hreply.trans htell.symm, by rw [hask, hchecks]; rfl, m, hasked, hstate.symm ▸ h, hscored⟩
  cases r with
  | call c =>
    cases c with
    | update s' =>
      obtain ⟨hreply, hverdict, hafter⟩ := h.going hscored hsub s' (.update s') rfl
      exact ⟨hreply, hverdict.trans (h.toParted.checks_update hsub s').symm, hafter⟩
    | reset =>
      have hstart := initialState_of_parted h.toParted
      obtain ⟨hreply, hverdict, hafter⟩ := h.going hscored hsub (.ofBools net.initialState) .reset
        (by rw [← hstart]; rfl)
      refine ⟨hreply, hverdict.trans ?_, hafter⟩
      rw [← h.toParted.checks_update hsub, checks, checks, hstart]
    | next legals => exact h.next hscored hb hof hseat hon hshow hd
  | legalMoves role =>
    exact hstay _ _ (Machine.ask_legalMoves (m := .combined m) hshow hprimed hcast role) rfl rfl rfl
  | isTerminal =>
    exact hstay _ _ (Machine.ask_isTerminal (m := .combined m) hshow hprimed hcast) rfl rfl rfl
  | goalValue role =>
    rw [Scored] at hscored
    cases goals with
    | none =>
      have hnone : m.goals = none := by
        cases hmachine : m.goals with
        | none => rfl
        | some machine =>
          rw [hmachine] at hscored
          cases hscored
      have hbits : part.bitsOf s = net.bitsOf s := by rw [bitsOf, bitsOf, hseat.bases]
      refine hstay _ (.goal (part.goalIn (part.bitsOf s) role)) ?_ rfl rfl rfl
      dsimp only [Machine.ask, Machine.goalValue]
      rw [CombinedMachine.goalValue, hnone, hbits]
      dsimp only
      rw [hshow.goalValue hprimed hcast]
      rfl
    | some g =>
      -- the machine for the goals is set to the state before it is asked
      cases hmachine : m.goals with
      | none =>
        rw [hmachine] at hscored
        cases hscored
      | some machine =>
        rw [hmachine] at hscored
        obtain ⟨bits, hold⟩ : ∃ bits, SingleMachine.Showing g bits [] machine := by
          cases hscored with
          | some hold => exact hold
        have hfin := hgoals g rfl
        obtain ⟨machine', hset, hnew, -⟩ := hold.setState hfin.primed s
        have hask : (Machine.combined m).ask (.goalValue role) =
            .ok (.goal (g.goalIn (g.bitsOf s) role), .combined { m with goals := some machine' }) := by
          dsimp only [Machine.ask, Machine.goalValue]
          rw [CombinedMachine.goalValue, hmachine]
          dsimp only
          rw [h.state, hset]
          dsimp only [bind, Except.bind]
          rw [hnew.goalValue hfin.primed hfin.formed.toCast]
          rfl
        obtain ⟨hreply, hasked⟩ := Machine.asked_of_ask hask
        exact ⟨hreply, by rw [hask]; rfl, _, hasked, h.withGoals _, .some ⟨_, hnew⟩⟩
  | currentState =>
    refine hstay _ (.state (some s)) ?_ rfl rfl rfl
    dsimp only [Machine.ask, Machine.currentState]
    rw [h.state]
    rfl

/-- Any number of requests lead to the state that was accepted last. -/
theorem Standing.history (hsub : ∀ b ∈ controls, b ∈ net.bases) (hgoals : ∀ g ∈ goals, g.Finished)
    (rs : List Request) : ∀ {m : CombinedMachine} {s : BaseState},
      Standing (Assigned controls nets) net controls s m → Scored goals m → (∀ r ∈ rs, r.Distinct) →
      rs.foldl Machine.asked (.combined m) = .combined (rs.foldl performed m) ∧
        Standing (Assigned controls nets) net controls (rs.foldl (net.stateAfter controls) s)
          (rs.foldl performed m) ∧ Scored goals (rs.foldl performed m) := by
  induction rs with
  | nil => exact fun h hscored _ => ⟨rfl, h, hscored⟩
  | cons r rs ih =>
    intro m s h hscored hrs
    obtain ⟨part, -, htracked⟩ := h.tracked hscored hsub hgoals (hrs r mem_cons_self)
    obtain ⟨m₁, hasked, h₁, hscored₁⟩ := htracked.next
    obtain rfl : m.performed r = m₁ :=
      Machine.combined.inj ((on_perform_of_checked htracked.checked).2.symm.trans hasked)
    rw [foldl_cons, foldl_cons, foldl_cons, hasked]
    exact ih h₁ hscored₁ (forall_mem_cons.mp hrs).2

/-- Two machines that stand in one state cannot be told apart, whatever they have been through. -/
theorem Standing.reply_eq_reply (hsub : ∀ b ∈ controls, b ∈ net.bases)
    (hgoals : ∀ g ∈ goals, g.Finished) (h : Standing (Assigned controls nets) net controls s m)
    (hscored : Scored goals m) (h' : Standing (Assigned controls nets) net controls s m')
    (hscored' : Scored goals m') {r : Request} (hd : r.Distinct) :
    ((perform r).on m).1 = ((perform r).on m').1 := by
  obtain ⟨part, hpart, htracked⟩ := h.tracked hscored hsub hgoals hd
  obtain ⟨part', hpart', htracked'⟩ := h'.tracked hscored' hsub hgoals hd
  obtain rfl : part = part' := (hpart.unique hpart').2
  rw [(on_perform_of_checked htracked.checked).1, (on_perform_of_checked htracked'.checked).1,
    htracked.reply, htracked'.reply]

theorem Standing.current_eq (h : Standing (Assigned controls nets) net controls s m)
    (h' : Standing (Assigned controls nets) net controls s m') :
    m.active = m'.active ∧ m.state = m'.state ∧ m.current.net = m'.current.net := by
  obtain ⟨b, part, hb, hof, -, hon, hshow⟩ := h.now
  obtain ⟨b', part', hb', hof', -, hon', hshow'⟩ := h'.now
  obtain ⟨hactive, rfl⟩ := (hof.partFor hb hon).unique (hof'.partFor hb' hon')
  exact ⟨hactive, h.state.trans h'.state.symm, hshow.same.trans hshow'.same.symm⟩

theorem Standing.verdict_eq_ok (h : Standing (Assigned controls nets) net controls s m)
    (hs : s.size = net.bases.length) : net.verdict controls s = .ok () := by
  obtain ⟨b, part, -, -, -, hon, -⟩ := h.now
  rw [verdict, if_pos hs, soleControl, hon]

end Tell

end CombinedMachine

/-! ## The machine of a compiled listing -/

namespace Network

theorem size_stateAfter {net : Network} (controls : List CompId) {s : BaseState}
    (hs : s.size = net.bases.length) (r : Request) :
    (net.stateAfter controls s r).size = net.bases.length := by
  have hgoing : ∀ s' : BaseState,
      (if (net.verdict controls s').isOk then s' else s).size = net.bases.length := by
    intro s'
    split
    · next hok =>
      by_contra hne
      rw [verdict, if_neg hne] at hok
      cases hok
    · exact hs
  cases r with
  | call c =>
    cases c with
    | update s' => exact hgoing s'
    | reset => exact hgoing _
    | next legals => exact hs
  | legalMoves | isTerminal | goalValue | currentState => exact hs

end Network

namespace Listing

open Network CombinedMachine

/-- After any history, a machine over the parts of a split refuses exactly what its checks refuse, and they
look at the state that is asked for and at nothing that was done before; a request that is refused has
written nothing. In all else the machine is like a new one that has been switched straight to the state
accepted last. -/
theorem forgets_history (l : Listing) (hb : l.Balanced) (ha : l.Acyclic) (opts vopts gopts : Options)
    {net : Network} {cb : ControlBases} {nets : List Network} {goals : Option Network}
    (h : (l.compile opts).listen.1 = .ok net) (hsub : ∀ b ∈ cb.bases, b ∈ net.bases)
    (hs : (net.split cb vopts).listen.1 = .ok nets)
    (hg : ∀ g ∈ goals, (net.goalsOnly gopts).listen.1 = .ok g) (strategy : Strategy)
    {start : CombinedMachine} (hnew : CombinedMachine.new nets goals strategy = .ok start)
    (rs : List Request) (hrs : ∀ r ∈ rs, r.Distinct) :
    let last := rs.foldl (net.stateAfter cb.bases) (.ofBools net.initialState)
    let m := rs.foldl performed start
    rs.foldl Machine.asked (.combined start) = .combined m ∧
      (∀ s, m.checks (.call (.update s)) = net.verdict cb.bases s) ∧
      (∀ r : Request, r.Distinct → ((perform r).on m).1 = ((Machine.combined m).ask r).map (·.1) ∧
        ((perform r).on m).1.map (fun _ => ()) = m.checks r ∧
        ∀ e, ((perform r).on m).1 = .error e → ((perform r).on m).2 = m) ∧
      ∃ fresh, (switchInPlace last).on start = (.ok (), fresh) ∧ m.state = last ∧
        m.active = fresh.active ∧ m.current.net = fresh.current.net ∧
        ∀ rs' : List Request, (∀ r ∈ rs', r.Distinct) → ∀ r : Request, r.Distinct →
          ((perform r).on (rs'.foldl performed m)).1 = ((perform r).on (rs'.foldl performed fresh)).1 := by
  obtain ⟨cut, final, hc⟩ := compiled_of_ok hb ha h
  have hfin := hc.finished
  have hseats := hfin.seats hsub vopts #[] nets (by rwa [← Observed.listen_eq])
  have hgoals : ∀ g ∈ goals, g.Finished := fun g hmem =>
    (hfin.goalsOnly gopts #[] g (by rw [← Observed.listen_eq]; exact hg g hmem)).finished
  obtain ⟨hstart, hscored⟩ := (CombinedMachine.new_parts hsub (assigned_of_forall₂ hseats)
    (fun g hmem => (hgoals g hmem).primed) hc.width strategy).2 start hnew
  obtain ⟨hm, hstands, hscored'⟩ := hstart.history hsub hgoals rs hscored hrs
  have hsize : (rs.foldl (net.stateAfter cb.bases) (.ofBools net.initialState)).size =
      net.bases.length := by
    refine foldl_keeps (fun _ (s : BaseState) => s.size = net.bases.length)
      (fun r _ s hs => size_stateAfter cb.bases hs r) rs _ ?_
    rw [BaseState.size_ofBools, hc.width]
  refine ⟨hm, hstands.toParted.checks_update hsub, fun r hd => ?_, ?_⟩
  · obtain ⟨part, -, htracked⟩ := hstands.tracked hscored' hsub hgoals hd
    obtain ⟨hon, -⟩ := on_perform_of_checked htracked.checked
    have hchecked : ((perform r).on (rs.foldl performed start)).1.map (fun _ => ()) =
        (rs.foldl performed start).checks r := by
      rw [hon, ← htracked.checked]
      cases (Machine.combined (rs.foldl performed start)).ask r <;> rfl
    refine ⟨by rw [hon], hchecked, fun e he => ?_⟩
    rw [he] at hchecked
    rw [on_perform_of_refused hchecked.symm]
  · obtain ⟨hverdict, hnext⟩ := hstart.toParted.update_verdict hsub
      (rs.foldl (net.stateAfter cb.bases) (.ofBools net.initialState))
    rw [hstands.verdict_eq_ok hsize] at hverdict
    cases hup : start.update (rs.foldl (net.stateAfter cb.bases) (.ofBools net.initialState)) with
    | error e =>
      rw [hup] at hverdict
      cases hverdict
    | ok fresh =>
      obtain ⟨hfresh, hsame⟩ := hnext fresh hup
      have hscored'' : CombinedMachine.Scored goals fresh := by
        rw [CombinedMachine.Scored, hsame]
        exact hscored
      obtain ⟨hactive, -, hcurrent⟩ := hstands.current_eq hfresh
      refine ⟨fresh, (switchInPlace_follows start _).ok fresh hup, hstands.state, hactive, hcurrent,
        fun rs' hrs' r hd => ?_⟩
      obtain ⟨-, h₁, hscored₁⟩ := hstands.history hsub hgoals rs' hscored' hrs'
      obtain ⟨-, h₂, hscored₂⟩ := hfresh.history hsub hgoals rs' hscored'' hrs'
      exact h₁.reply_eq_reply hsub hgoals hscored₁ h₂ hscored₂ hd

def fumble : List Request :=
  [.call (.update (.ofBools [false, true])), .call (.update (.ofBools [true, true])), .goalValue 0,
    .call (.update (.ofBools [false, false])), .call (.next [9]), .call (.update (.ofBools []))]

theorem forgets_history_relay : ∃ net nets goals start fresh,
    (relay.compile {}).listen.1 = .ok net ∧
    (net.split { bases := [0, 1], stripGoals := true } {}).listen.1 = .ok nets ∧
    (net.goalsOnly {}).listen.1 = .ok goals ∧
    CombinedMachine.new nets (some goals) .byLevel = .ok start ∧
    (switchInPlace (.ofBools [false, true])).on start = (.ok (), fresh) ∧
    ((perform (.call (.update (.ofBools [])))).on (fumble.foldl performed start)).1 =
      .error (.play (.stateSize 2 0)) ∧
    ((perform (.call (.update (.ofBools [])))).on (fumble.foldl performed start)).2 =
      fumble.foldl performed start ∧
    ((perform (.goalValue 0)).on (fumble.foldl performed start)).1 = ((perform (.goalValue 0)).on fresh).1 := by
  have hok : (do
      let net ← (relay.compile {}).listen.1
      let nets ← (net.split { bases := [0, 1], stripGoals := true } {}).listen.1
      let goals ← (net.goalsOnly {}).listen.1
      let _ ← CombinedMachine.new nets (some goals) .byLevel
      return (net.bases, fumble.foldl (net.stateAfter [0, 1]) (.ofBools net.initialState)) :
        Checked (List CompId × BaseState)) = .ok ([0, 1], .ofBools [false, true]) := by
    decide +kernel
  obtain ⟨net, hnet, hok⟩ := exists_of_bind_eq_ok hok
  obtain ⟨nets, hnets, hok⟩ := exists_of_bind_eq_ok hok
  obtain ⟨goals, hgoals, hok⟩ := exists_of_bind_eq_ok hok
  obtain ⟨start, hstart, hok⟩ := exists_of_bind_eq_ok hok
  obtain ⟨hbases, hlast⟩ := Prod.mk.inj (Except.ok.inj hok)
  obtain ⟨-, hchecks, hperform, fresh, hfresh, -, -, -, hreplies⟩ := forgets_history relay relay_balanced
    relay_acyclic {} {} {} hnet (by rw [hbases]; exact fun b hb => hb) hnets
    (fun g hg => by cases hg; exact hgoals) .byLevel hstart fumble (by decide)
  rw [hlast] at hfresh
  have hsize : ((perform (.call (.update (.ofBools [])))).on (fumble.foldl performed start)).1 =
      .error (.play (.stateSize 2 0)) := by
    obtain ⟨-, hchecked, -⟩ := hperform (.call (.update (.ofBools []))) trivial
    rw [hchecks, verdict, hbases] at hchecked
    generalize ((perform (.call (.update (.ofBools [])))).on (fumble.foldl performed start)).1 = x at hchecked ⊢
    cases x with
    | ok _ => cases hchecked
    | error e => exact congrArg _ (Except.error.inj hchecked)
  have hkept := (hperform (.call (.update (.ofBools []))) trivial).2.2 _ hsize
  have hgoal := hreplies [] (fun _ h => by cases h) (.goalValue 0) trivial
  rw [foldl_nil, foldl_nil] at hgoal
  exact ⟨net, nets, goals, start, fresh, hnet, hnets, hgoals, hstart, hfresh, hsize, hkept, hgoal⟩

end Listing

end GameNet
