import GameNet.Proofs.InPlace
import GameNet.Proofs.Requests

/-!
Machines over several networks that are changed in place.

`update`, `nextState` and `goalValue` give a new machine, so what they leave when they fail cannot be
seen. Here are the programs that own one machine and write to it in the order in which a switch does: the
active position, the counts of its part, the state.
-/

namespace GameNet

namespace InPlace

variable {σ τ α β : Type} {x : InPlace τ β} {y : Checked α} {view : α → β} {left : α → τ}
  {g : σ → τ} {p : σ → τ → σ} {s : σ}

/-- Work on a part of what is owned. The part is put back also when the work fails. -/
def within (g : σ → τ) (p : σ → τ → σ) (x : InPlace τ α) : InPlace σ α := fun s =>
  ((x.on (g s)).1, p s (x.on (g s)).2)

theorem on_within (r : Checked β × τ) (h : x.on (g s) = r) : (within g p x).on s = (r.1, p s r.2) := by
  subst h
  rfl

theorem Follows.within (h : Follows (x.on (g s)) y view left) :
    Follows ((within g p x).on s) y view fun a => p s (left a) :=
  ⟨fun a ha => on_within _ (h.ok a ha), h.error⟩

end InPlace

namespace SingleMachine

open InPlace

def queueInPlace (c : CompId) (value : Bool) : InPlace SingleMachine Unit :=
  put (fun m => Levels.set m.levels m.net c value) fun m levels => { m with levels }

def setManyInPlace (values : List (CompId × Bool)) : InPlace SingleMachine Unit := do
  match ← ask fun m => pure m.strategy with
  | .depthFirst => values.forM fun (c, value) => step (·.setDepthFirst c value)
  | .byLevel =>
    values.forM fun (c, value) => queueInPlace c value
    put (fun m => m.levels.run m.net) fun m x => { m with net := x.1, levels := x.2 }

def setStateInPlace (s : BaseState) : InPlace SingleMachine Unit := do
  let values ← ask fun m => pure (m.net.bases.zipIdx.map fun (b, i) => (b, s.get i))
  setManyInPlace values

def nextStateInPlace (legals : List CompId) : InPlace SingleMachine BaseState := do
  let inputs ← ask fun m => legals.mapM m.inputOf
  setManyInPlace (inputs.map (·, true))
  let next ← ask fun m => m.readState m.net.transitions Component.value
  setManyInPlace (inputs.map (·, false))
  return next

theorem queueInPlace_follows (m : SingleMachine) (values : List (CompId × Bool)) :
    Follows ((values.forM fun (c, value) => queueInPlace c value).on m)
      (values.foldlM (fun lv (c, value) => Levels.set lv m.net c value) m.levels) (fun _ => ⟨⟩)
      fun levels => { m with levels } := by
  induction values generalizing m with
  | nil => exact .of_ok rfl rfl
  | cons x values ih =>
    rw [List.foldlM_cons]
    exact (Follows.put (s := m) _ _).bind fun levels => ih { m with levels }

theorem setManyInPlace_follows (m : SingleMachine) (values : List (CompId × Bool)) :
    Follows ((setManyInPlace values).on m) (m.setMany values) (fun _ => ()) id := by
  unfold setManyInPlace setMany
  rw [on_ask_pure_bind]
  cases m.strategy with
  | depthFirst => exact .forM (fun m _ => .step _) values m
  | byLevel => exact (queueInPlace_follows m values).bind fun levels => .map (.put _ _)

theorem setStateInPlace_follows (m : SingleMachine) (s : BaseState) :
    Follows ((setStateInPlace s).on m) (m.setState s) (fun _ => ()) id :=
  setManyInPlace_follows m _

theorem nextStateInPlace_follows (m : SingleMachine) (legals : List CompId) :
    Follows ((nextStateInPlace legals).on m) (m.nextState legals) (·.1) (·.2) :=
  (Follows.ask _).bind fun _ => (setManyInPlace_follows m _).bind fun m₁ =>
    (Follows.ask _).bind fun _ => (setManyInPlace_follows m₁ _).bind fun _ => .of_ok rfl rfl

end SingleMachine

namespace CombinedMachine

open InPlace

variable {m m' : CombinedMachine}

def onPart {α : Type} (k : Nat) : InPlace SingleMachine α → InPlace CombinedMachine α :=
  within (fun m => (m.parts.getD k default).machine) fun m machine =>
    { m with parts := m.parts.modify k ({ · with machine }) }

def onGoals {α : Type} : InPlace SingleMachine α → InPlace CombinedMachine α :=
  within (fun m => m.goals.getD default) fun m goals => { m with goals := some goals }

def switchInPlace (s : BaseState) : InPlace CombinedMachine Unit := do
  ask (·.current.checkState s)
  let k ← ask (·.select s)
  change ({ · with active := k })
  onPart k (SingleMachine.setStateInPlace s)
  change ({ · with state := s })

def nextStateInPlace (legals : List CompId) : InPlace CombinedMachine BaseState := do
  let k ← ask fun m => pure m.active
  onPart k (SingleMachine.nextStateInPlace legals)

def goalValueInPlace (role : Nat) : InPlace CombinedMachine (Option Nat) := do
  let m ← ask pure
  match m.goals with
  | none => ask (·.current.goalValue role)
  | some _ =>
    onGoals (SingleMachine.setStateInPlace m.state)
    onGoals (ask (·.goalValue role))

/-- A request to a machine that is owned. The questions that only read are asked of it as it is. -/
def perform : Request → InPlace CombinedMachine Reply
  | .call (.update s) => do
    switchInPlace s
    return .state none
  | .call .reset => do
    let s ← ask fun m => pure (Machine.combined m).initialState
    switchInPlace s
    return .state none
  | .call (.next legals) => do
    let s ← nextStateInPlace legals
    return .state (some s)
  | .goalValue role => do
    let g ← goalValueInPlace role
    return .goal g
  | r => ask fun m => ((Machine.combined m).ask r).map (·.1)

def performed (m : CombinedMachine) (r : Request) : CombinedMachine := ((perform r).on m).2

theorem onPart_follows {α β : Type} {x : InPlace SingleMachine β} {y : Checked α} {view : α → β}
    {left : α → SingleMachine} (m : CombinedMachine) (k : Nat)
    (h : Follows (x.on (m.parts.getD k default).machine) y view left) :
    Follows ((onPart k x).on m) y view fun a =>
      { m with parts := m.parts.modify k ({ · with machine := left a }) } :=
  Follows.within (g := fun m : CombinedMachine => (m.parts.getD k default).machine) h

theorem onGoals_follows {α β : Type} {x : InPlace SingleMachine β} {y : Checked α} {view : α → β}
    {left : α → SingleMachine} (m : CombinedMachine) (h : Follows (x.on (m.goals.getD default)) y view left) :
    Follows ((onGoals x).on m) y view fun a => { m with goals := some (left a) } :=
  Follows.within (g := fun m : CombinedMachine => m.goals.getD default) h

theorem switchInPlace_follows (m : CombinedMachine) (s : BaseState) :
    Follows ((switchInPlace s).on m) (m.update s) (fun _ => ()) id := by
  refine (Follows.ask _).bind fun _ => (Follows.ask _).bind fun k => ?_
  rw [on_bind_ok (on_change _ _)]
  exact (onPart_follows { m with active := k } k (SingleMachine.setStateInPlace_follows _ s)).bind
    fun _ => .of_ok rfl rfl

theorem nextStateInPlace_follows (m : CombinedMachine) (legals : List CompId) :
    Follows ((nextStateInPlace legals).on m) (m.nextState legals) (·.1) (·.2) := by
  unfold nextStateInPlace nextState
  rw [on_ask_pure_bind]
  exact .map (onPart_follows m m.active (SingleMachine.nextStateInPlace_follows _ legals))

theorem goalValueInPlace_follows (m : CombinedMachine) (role : Nat) :
    Follows ((goalValueInPlace role).on m) (m.goalValue role) (·.1) (·.2) := by
  obtain ⟨parts, goals, active, state⟩ := m
  unfold goalValueInPlace goalValue
  rw [on_ask_pure_bind]
  cases goals with
  | none => exact .map (.ask _)
  | some goals =>
    exact (onGoals_follows _ (SingleMachine.setStateInPlace_follows goals state)).bind fun goals =>
      .map (onGoals_follows ⟨parts, some goals, active, state⟩ (.ask (s := goals) _))

def Performs (m : CombinedMachine) (r : Request) : Prop :=
  ∃ y : Checked (Reply × CombinedMachine), (Machine.combined m).ask r = y.map (Prod.map id .combined) ∧
    Follows ((perform r).on m) y (·.1) (·.2)

theorem performs_update (m : CombinedMachine) (s : BaseState) : m.Performs (.call (.update s)) := by
  refine ⟨m.update s >>= fun m => pure (Reply.state none, m), ?_, ?_⟩
  · dsimp only [Machine.ask, Call.answer, Machine.update]
    cases m.update s <;> rfl
  · exact (switchInPlace_follows m s).bind fun _ => .of_ok rfl rfl

theorem performs_next (m : CombinedMachine) (legals : List CompId) : m.Performs (.call (.next legals)) := by
  refine ⟨m.nextState legals >>= fun x => pure (Reply.state (some x.1), x.2), ?_, ?_⟩
  · dsimp only [Machine.ask, Call.answer, Machine.nextState]
    cases m.nextState legals <;> rfl
  · exact (nextStateInPlace_follows m legals).bind fun _ => .of_ok rfl rfl

theorem performs_goalValue (m : CombinedMachine) (role : Nat) : m.Performs (.goalValue role) := by
  refine ⟨m.goalValue role >>= fun x => pure (Reply.goal x.1, x.2), ?_, ?_⟩
  · dsimp only [Machine.ask, Machine.goalValue]
    cases m.goalValue role <;> rfl
  · exact (goalValueInPlace_follows m role).bind fun _ => .of_ok rfl rfl

theorem on_perform_reset (m : CombinedMachine) : (perform (.call .reset)).on m =
    (perform (.call (.update (Machine.combined m).initialState))).on m :=
  on_ask_pure_bind _ _ m

theorem performs_of_reading {α : Type} {r : Request} (look : Checked α) (f : α → Reply)
    (hr : perform r = InPlace.ask fun m => ((Machine.combined m).ask r).map (·.1))
    (hask : (Machine.combined m).ask r = look >>= fun a => pure (f a, .combined m)) : m.Performs r := by
  refine ⟨look >>= fun a => pure (f a, m), ?_, ?_⟩
  · rw [hask]
    cases look <;> rfl
  · rw [hr, on_ask, hask]
    cases look with
    | ok a => exact .of_ok rfl rfl
    | error e => exact .fail

theorem performs (m : CombinedMachine) (r : Request) : m.Performs r := by
  cases r with
  | call c =>
    cases c with
    | update s => exact m.performs_update s
    | reset =>
      obtain ⟨y, hask, hfollows⟩ := m.performs_update (Machine.combined m).initialState
      refine ⟨y, ?_, ?_⟩
      · rw [← hask, Machine.ask, Machine.ask, Call.answer, Call.answer, Machine.reset]
      · rw [on_perform_reset]
        exact hfollows
    | next legals => exact m.performs_next legals
  | goalValue role => exact m.performs_goalValue role
  | legalMoves role => exact performs_of_reading (m.current.legalMoves role) .moves rfl rfl
  | isTerminal => exact performs_of_reading m.current.isTerminal .terminal rfl rfl
  | currentState => exact performs_of_reading (pure m.state) (.state ∘ some) rfl rfl

/-! ## Requests that are refused -/

/-- The checks that a request must pass. They look at the machine and change nothing. -/
def checks (m : CombinedMachine) : Request → Checked Unit
  | .call (.update s) => do
    m.current.checkState s
    let _ ← m.select s
  | .call .reset => do
    m.current.checkState (Machine.combined m).initialState
    let _ ← m.select (Machine.combined m).initialState
  | .call (.next legals) => do
    let _ ← legals.mapM m.current.inputOf
  | _ => pure ()

theorem modify_getD (parts : Array ControlMachine) (k : Nat) :
    (parts.modify k ({ · with machine := (parts.getD k default).machine })) = parts := by
  refine Array.ext_getElem? fun j => ?_
  rw [Array.getElem?_modify]
  split
  · next hk =>
    subst hk
    rw [Array.getD_eq_getD_getElem?]
    cases parts[k]? <;> rfl
  · rfl

theorem on_switchInPlace_of_refused {s : BaseState} {e : Fault} (h : m.checks (.call (.update s)) = .error e) :
    (switchInPlace s).on m = (.error e, m) := by
  rw [checks] at h
  cases hsize : m.current.checkState s with
  | error e' =>
    rw [hsize] at h
    cases h
    exact on_ask_bind_error hsize
  | ok _ =>
    rw [hsize] at h
    unfold switchInPlace
    rw [on_ask_bind_ok (fun m : CombinedMachine => m.current.checkState s) hsize]
    cases hsel : m.select s with
    | error e' =>
      rw [hsel] at h
      cases h
      exact on_ask_bind_error hsel
    | ok k =>
      rw [hsel] at h
      cases h

/-- The checks come before the first write. -/
theorem on_perform_of_refused {r : Request} {e : Fault} (h : m.checks r = .error e) :
    (perform r).on m = (.error e, m) := by
  cases r with
  | call c =>
    cases c with
    | update s => exact on_bind_error (on_switchInPlace_of_refused h)
    | reset => exact m.on_perform_reset.trans (on_bind_error (on_switchInPlace_of_refused h))
    | next legals =>
      have hin : legals.mapM m.current.inputOf = .error e := by
        rw [checks] at h
        cases hin : legals.mapM m.current.inputOf with
        | error e' =>
          rw [hin] at h
          cases h
          rfl
        | ok inputs =>
          rw [hin] at h
          cases h
      have hpart : (SingleMachine.nextStateInPlace legals).on m.current = (.error e, m.current) :=
        on_ask_bind_error hin
      have hnext : (nextStateInPlace legals).on m = (.error e, m) := by
        unfold nextStateInPlace
        rw [on_ask_pure_bind]
        refine (on_within (g := fun x : CombinedMachine => (x.parts.getD m.active default).machine) _
          hpart).trans (Prod.ext rfl ?_)
        change ({ m with parts := m.parts.modify m.active ({ · with machine := m.current }) } :
          CombinedMachine) = m
        rw [current, modify_getD]
      exact on_bind_error hnext
  | legalMoves | isTerminal | goalValue | currentState => cases h

/-- Where no fault but those of the checks can arise, the program and the function cannot be told apart. -/
theorem on_perform_of_checked {r : Request}
    (h : ((Machine.combined m).ask r).map (fun _ => ()) = m.checks r) :
    (perform r).on m = (((Machine.combined m).ask r).map (·.1), m.performed r) ∧
      (Machine.combined m).asked r = .combined (m.performed r) := by
  obtain ⟨y, hask, hfollows⟩ := m.performs r
  rw [performed, Machine.asked, hask]
  cases y with
  | ok x =>
    rw [hfollows.ok x rfl]
    exact ⟨rfl, rfl⟩
  | error e =>
    rw [hask] at h
    rw [on_perform_of_refused h.symm]
    exact ⟨rfl, rfl⟩

end CombinedMachine

end GameNet
