import GameNet.Eval.Levels
import GameNet.State

/-!
Machines over one network.

A machine keeps the counts of its network in step with the current state, so that legal moves,
terminal and goals can be read off the components.
-/

namespace GameNet

inductive Strategy where
  | depthFirst
  | byLevel
  deriving DecidableEq, Repr, Inhabited

structure SingleMachine where
  net : Network
  strategy : Strategy
  levels : Levels
  log : Option ActivityLog := none
  deriving Inhabited

structure Analysis where
  /-- visits and component, of every base and input, the busiest first -/
  ranked : List (Nat × CompId)
  flips : Nat
  fanning : Nat
  deriving DecidableEq, Repr

def Analysis.visits (a : Analysis) : Nat := a.ranked.foldl (fun n (visits, _) => n + visits) 0

namespace SingleMachine

/-! ## Changes -/

def setDepthFirst (m : SingleMachine) (c : CompId) (value : Bool) : Checked SingleMachine := do
  let { net, strategy, levels, log } := m
  match log with
  | none => return ⟨(← net.propagate c value).1, strategy, levels, none⟩
  | some log =>
    let (net, log) ← net.propagateLogged log c value
    return ⟨net, strategy, levels, some log⟩

def setMany (m : SingleMachine) (values : List (CompId × Bool)) : Checked SingleMachine :=
  match m.strategy with
  | .depthFirst => values.foldlM (fun m (c, value) => m.setDepthFirst c value) m
  | .byLevel => do
    let { net, strategy, levels, log } := m
    -- all changes are queued against the counts before the run
    let levels ← values.foldlM (fun lv (c, value) => Levels.set lv net c value) levels
    let (net, levels) ← levels.run net
    return ⟨net, strategy, levels, log⟩

def setState (m : SingleMachine) (s : BaseState) : Checked SingleMachine :=
  m.setMany (m.net.bases.zipIdx.map fun (b, i) => (b, s.get i))

def initialState (m : SingleMachine) : BaseState := .ofBools m.net.initialState

def new (net : Network) (strategy : Strategy) : Checked SingleMachine :=
  let m : SingleMachine := { net, strategy, levels := .new net }
  m.setState m.initialState

def recording (net : Network) : Checked SingleMachine := do
  return { ← new net .depthFirst with log := some [] }

def checkState (m : SingleMachine) (s : BaseState) : Checked Unit :=
  if s.size = m.net.bases.length then pure ()
  else throw (.play (.stateSize m.net.bases.length s.size))

def update (m : SingleMachine) (s : BaseState) : Checked SingleMachine := do
  m.checkState s
  m.setState s

/-! ## Readings -/

def readState (m : SingleMachine) (cs : List CompId) (test : Component → Bool) :
    Checked BaseState := do
  return .ofBools (← cs.mapM fun c => do return test (← m.net.get c))

def currentState (m : SingleMachine) : Checked BaseState :=
  m.readState m.net.bases fun k => decide (0 < k.count)

def legalMoves (m : SingleMachine) (role : Nat) : Checked (List CompId) :=
  match m.net.players[role]? with
  | none => pure []
  | some p => p.legals.filterM fun l => do return (← m.net.get l).value

def isTerminal (m : SingleMachine) : Checked Bool := do
  return (← m.net.get m.net.terminal).value

def goalValue (m : SingleMachine) (role : Nat) : Checked (Option Nat) :=
  match m.net.players[role]? with
  | none => pure none
  | some p => do
    match ← p.goals.findM? fun g => do return (← m.net.get g).value with
    | none => return none
    | some g => return (← m.net.get g).proposition?.bind (·.goal)

def moveText (m : SingleMachine) (c : CompId) : String := (m.net.moveText? c).getD c.render

/-! ## Moves -/

def unknownMove (m : SingleMachine) (l : CompId) : Fault :=
  let player := ((m.net.get? l).bind (·.proposition?)).bind (·.player)
  .play (.unknownMove (player.getD 0) (m.moveText l))

def inputOf (m : SingleMachine) (l : CompId) : Checked CompId :=
  match (m.net.get? l).filter (·.value) with
  | none => throw (m.unknownMove l)
  | some k =>
    match k.proposition?.bind (·.pairedInput) with
    | some i => pure i
    | none => throw (m.unknownMove l)

/-- The state that follows when the given legals are chosen. The machine stays in its state. -/
def nextState (m : SingleMachine) (legals : List CompId) : Checked (BaseState × SingleMachine) := do
  let inputs ← legals.mapM m.inputOf
  let m ← m.setMany (inputs.map (·, true))
  let next ← m.readState m.net.transitions Component.value
  let m ← m.setMany (inputs.map (·, false))
  return (next, m)

/-! ## Work -/

def analysis (m : SingleMachine) : Analysis :=
  let log := m.log.getD []
  let ranked := (m.net.bases ++ m.net.inputs).map fun c => ((log.get c).visits, c)
  { ranked := sortBy (fun a b => b.1 < a.1 || (a.1 == b.1 && decide (b.2 ≤ a.2))) ranked
    flips := log.foldl (fun n (_, a) => n + a.flips) 0
    fanning := log.foldl (fun n (_, a) => n + a.fanning) 0 }

end SingleMachine

end GameNet
