import GameNet.Control.Base
import GameNet.Play.Compare
import GameNet.Schedule
import GameNet.Simplify.Constants
import GameNet.Simplify.FanIn
import GameNet.Simplify.Optimize
import GameNet.Verify

/-!
Variants of a network: without goals, with goals only, and split on control bases.
-/

namespace GameNet.Network

def settle (net : Network) (opts : Options) : Observed Network := do
  let net ← net.recount net.sinks false
  let net ← net.schedule
  net.verify opts.verify opts.maxFanIn
  return net

def foldConstants (net : Network) (cs : List CompId) (value : Bool) : Observed Network :=
  cs.foldlM (fun net c => do return (← net.foldConstant c value).1) net

def dropComponents (net : Network) (cs : List CompId) : Checked Network :=
  cs.foldlM (fun net c => do return (← net.isolate c).remove c) net

def stripGoals (net : Network) : Observed Network := do
  let (net, _) ← net.removeDeadEnds (net.protectedIds false)
  let players := net.players.map fun p => { p with goals := p.goals.filter net.contains }
  return (← Network.optimize { net with players } {}).1

def goalless (net : Network) (opts : Options) : Observed Network := do
  let net ← (← net.stripGoals).settle opts
  Observed.stage "goalless" net
  return net

/-- A copy that computes only the terminal and the goals. Inputs are false, transitions are cut loose
and legals are gone, but the bases stay, so the states of the full network still fit. -/
def goalsOnly (net : Network) (opts : Options) : Observed Network := do
  let net ← net.foldConstants net.inputs false
  let net ← net.transitions.foldlM (fun (net : Network) t => net.isolate t) net
  -- without legals there are no moves, so the inputs go too
  let net ← net.dropComponents net.legals
  let net ← net.dropComponents net.inputs
  let players := net.players.map fun p => { p with legals := [], inputs := [] }
  let net := { net with inputs := [], players }
  let keep := net.inbound ++ net.goals ++ net.transitions ++ [net.terminal]
  let (net, _) ← net.removeDeadEnds keep
  let (net, _) ← net.optimize {}
  let net ← net.settle opts
  Observed.stage "goals only" net
  return net

def fixControl (net : Network) (cb : ControlBases) (k : Nat) (fixed : CompId) (opts : Options) :
    Observed Network := do
  let net ← if cb.stripGoals then net.stripGoals else pure net
  let net ← net.foldConstants [fixed] true
  let net ← net.foldConstants ((cb.bases.zipIdx.filter (·.2 ≠ k)).map (·.1)) false
  let net := { net with fixedBase := some fixed }
  let (net, _) ← net.optimize { allPasses := true }
  -- flattening may have raised the fan-in above the cap
  let net ← if 0 < opts.maxFanIn then do pure (← net.capFanIn opts.maxFanIn).1 else pure net
  let (net, _) ← net.optimize {}
  let net ← net.settle opts
  Observed.stage "split" net
  return net

def split (net : Network) (cb : ControlBases) (opts : Options) : Observed (List Network) :=
  cb.bases.zipIdx.mapM fun (fixed, k) => net.fixControl cb k fixed opts

def validateSplit (net : Network) (nets : List Network) (goals : Option Network) (opts : Options) :
    Checked Nat :=
  let make := do
    let single ← SingleMachine.new net .depthFirst
    let combined ← CombinedMachine.new nets goals .depthFirst
    return (Machine.single single, Machine.combined combined)
  (validate make (opts.seed.getD 0) (opts.workerCount?.getD 1) opts.validateGames
    opts.maxDepth).mapError Fault.asCompile

end GameNet.Network
