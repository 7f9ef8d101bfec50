import GameNet.Machine.Combined

/-!
Machines of any build, and what can be asked of them.
-/

namespace GameNet

inductive Machine where
  | single (m : SingleMachine)
  | combined (m : CombinedMachine)
  | goalless (m : GoallessMachine)
  deriving Inhabited

namespace Machine

def player : Machine → SingleMachine
  | .single m => m
  | .combined m => m.current
  | .goalless m => m.play

def net (m : Machine) : Network := m.player.net

def roleCount (m : Machine) : Nat := m.net.roles.length

def initialState (m : Machine) : BaseState := .ofBools m.net.initialState

def update (m : Machine) (s : BaseState) : Checked Machine :=
  match m with
  | .single m => .single <$> m.update s
  | .combined m => .combined <$> m.update s
  | .goalless m => do return .goalless { m with play := ← m.play.update s }

def reset (m : Machine) : Checked Machine := m.update m.initialState

def currentState (m : Machine) : Checked BaseState :=
  match m with
  | .single m => m.currentState
  | .combined m => pure m.state
  | .goalless m => m.play.currentState

def legalMoves (m : Machine) (role : Nat) : Checked (List CompId) := m.player.legalMoves role

def isTerminal (m : Machine) : Checked Bool := m.player.isTerminal

def nextState (m : Machine) (legals : List CompId) : Checked (BaseState × Machine) :=
  match m with
  | .single m => do
    let (s, m) ← m.nextState legals
    return (s, .single m)
  | .combined m => do
    let (s, m) ← m.nextState legals
    return (s, .combined m)
  | .goalless m => do
    let (s, play) ← m.play.nextState legals
    return (s, .goalless { m with play })

def goalValue (m : Machine) (role : Nat) : Checked (Option Nat × Machine) :=
  match m with
  | .single m => do return (← m.goalValue role, .single m)
  | .combined m => do
    let (g, m) ← m.goalValue role
    return (g, .combined m)
  | .goalless m => do
    let (g, m) ← m.goalValue role
    return (g, .goalless m)

def moveText (m : Machine) (c : CompId) : String := m.player.moveText c

def findMove (m : Machine) (role : Nat) (text : String) : Checked (Option CompId) := do
  return (← m.legalMoves role).find? fun l => m.moveText l == text

def stateTerms (m : Machine) (s : BaseState) : Checked (List String) := do
  let terms ← s.trueBits.mapM fun i =>
    match m.net.bases[i]? with
    | some b => pure (m.net.termText? b)
    | none => throw (.crash .indexOutOfRange)
  return terms.filterMap id

end Machine

end GameNet
