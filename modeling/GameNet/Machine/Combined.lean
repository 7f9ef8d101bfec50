import GameNet.Machine.Single

/-!
Machines over several networks: one for each control base, and one for the goals.
-/

namespace GameNet

structure ControlMachine where
  position : Nat
  machine : SingleMachine
  deriving Inhabited

/-- Which machine plays is decided by which control base is true. -/
structure CombinedMachine where
  parts : Array ControlMachine
  goals : Option SingleMachine
  active : Nat
  state : BaseState
  deriving Inhabited

namespace CombinedMachine

def current (m : CombinedMachine) : SingleMachine := (m.parts.getD m.active default).machine

def controlBase (part : ControlMachine) : CompId :=
  (part.machine.net.bases[part.position]?).getD 0

/-- The position of the machine for a state: exactly one control base must be true in it. -/
def select (m : CombinedMachine) (s : BaseState) : Checked Nat :=
  match m.parts.toList.zipIdx.filter fun (part, _) => s.get part.position with
  | [(_, k)] => pure k
  | [] => throw (.play .noActiveNetwork)
  | on => throw (.play (.ambiguousNetwork (on.map fun (part, _) => controlBase part)))

def update (m : CombinedMachine) (s : BaseState) : Checked CombinedMachine := do
  m.current.checkState s
  let active ← m.select s
  let machine ← (m.parts.getD active default).machine.setState s
  return { m with parts := m.parts.modify active ({ · with machine }), active, state := s }

def part (strategy : Strategy) (net : Network) : Checked ControlMachine := do
  match net.fixedBase.bind fun b => net.bases.findIdx? (· == b) with
  | none => throw (.play .noActiveNetwork)
  | some position => return ⟨position, ← SingleMachine.new net strategy⟩

def new (nets : List Network) (goals : Option Network) (strategy : Strategy) :
    Checked CombinedMachine := do
  match ← nets.mapM (part strategy) with
  | [] => throw (.play .noActiveNetwork)
  | first :: rest =>
    let goals ← goals.mapM (SingleMachine.new · strategy)
    let state := first.machine.initialState
    CombinedMachine.update ⟨(first :: rest).toArray, goals, 0, state⟩ state

def nextState (m : CombinedMachine) (legals : List CompId) :
    Checked (BaseState × CombinedMachine) := do
  let (next, machine) ← m.current.nextState legals
  return (next, { m with parts := m.parts.modify m.active ({ · with machine }) })

def goalValue (m : CombinedMachine) (role : Nat) : Checked (Option Nat × CombinedMachine) := do
  match m.goals with
  | none => return (← m.current.goalValue role, m)
  | some goals =>
    let goals ← goals.setState m.state
    return (← goals.goalValue role, { m with goals := some goals })

end CombinedMachine

structure GoallessMachine where
  play : SingleMachine
  goals : SingleMachine
  deriving Inhabited

namespace GoallessMachine

def new (goalless goals : Network) (strategy : Strategy) : Checked GoallessMachine := do
  return ⟨← SingleMachine.new goalless strategy, ← SingleMachine.new goals strategy⟩

def goalValue (m : GoallessMachine) (role : Nat) : Checked (Option Nat × GoallessMachine) := do
  let goals ← m.goals.setState (← m.play.currentState)
  return (← goals.goalValue role, { m with goals })

end GoallessMachine

end GameNet
