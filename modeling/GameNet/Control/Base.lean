import GameNet.Control.Loops
import GameNet.Machine.Single
import GameNet.Options

/-!
Control bases: bases of which exactly one is true in every state of a play, such as whose turn it is.
-/

namespace GameNet

structure ControlBases where
  bases : List CompId
  stripGoals : Bool
  /-- the predicate that the bases share, if they were found by it -/
  name : Option String := none
  /-- the work caused by the bases in the statistical search -/
  totalPushes : Nat := 0
  deriving DecidableEq, Repr

namespace Control

/-- The predicate of a base like `(true (control white))`, where the argument is a role. -/
def rolePredicate? (net : Network) (t : Term) : Option String := do
  let fact ← t.nth? 1
  if fact.arity ≠ 2 then none
  let predicate ← fact.nth? 0
  let role ← (← fact.nth? 1).name?
  let _ ← net.roleIndex? role
  return predicate.render

def addToGroup (name : String) (b : CompId) :
    List (String × List CompId) → List (String × List CompId)
  | [] => [(name, [b])]
  | (other, bases) :: rest =>
    if name = other then (other, bases ++ [b]) :: rest
    else if name < other then (name, [b]) :: (other, bases) :: rest
    else (other, bases) :: addToGroup name b rest

def roleGroups (net : Network) : Checked (List (String × List CompId)) :=
  net.bases.foldlM (fun groups b => do
    return match (← net.get b).term?.bind (rolePredicate? net) with
      | some name => addToGroup name b groups
      | none => groups) []

def groupPushes? (net : Network) (top : List (Nat × CompId)) (bases : List CompId) : Option Nat :=
  if bases.length ≠ net.roles.length then none
  else (bases.mapM fun b => (top.find? (·.2 == b)).map (·.1)).map fun pushes =>
    pushes.foldl (· + ·) 0 % UInt64.size

def best (net : Network) (top : List (Nat × CompId)) (stripGoals : Bool)
    (found : Option ControlBases) (group : String × List CompId) : Option ControlBases :=
  match groupPushes? net top group.2 with
  | none => found
  | some total =>
    if found.all fun cb => decide (cb.totalPushes < total) then
      some ⟨group.2, stripGoals, some group.1, total⟩
    else found

end Control

namespace Network

/-- The control bases among the busiest bases, where `ranked` lists pushes and components, the
busiest first. -/
def rankedControls (net : Network) (ranked : List (Nat × CompId)) (stripGoals : Bool) :
    Checked (Option ControlBases) := do
  let top := (ranked.filter fun (_, c) => net.isRole c .base).take (net.roles.length * 2)
  return (← Control.roleGroups net).foldl (Control.best net top stripGoals) none

/-- Looks for control bases in a record of random games. A computation without a clock has no time
for a game, so the record is empty, and every base ranks by its number alone. -/
def statisticalControls (net : Network) (opts : Options) : Checked (Option ControlBases) := do
  let machine ← SingleMachine.recording net
  net.rankedControls machine.analysis.ranked opts.stripGoals

/-- Finds the control bases: those of the one control loop, if there is just one, and else those that
the statistics show. -/
def discoverControls (net : Network) (opts : Options) : Checked ControlBases := do
  match ← net.controlLoops (← net.controls) with
  | [bases] => return { bases, stripGoals := opts.stripGoals }
  | _ =>
    match ← net.statisticalControls opts with
    | some cb => return cb
    | none => throw (.compile .noControl)

end Network

end GameNet
