import GameNet.Control.Split
import GameNet.Layout.Description
import GameNet.Listing.Build
import GameNet.Simplify.Endpoints

/-!
The compiler: from a listing to a network that is simplified, scheduled, verified and in canonical
order.
-/

namespace GameNet

namespace Network

/-- The counts with which the initial state is computed: a constant by its sign, a proposition
without inputs false, and 0 for whatever has no count yet, which is what a cycle reads. -/
def seedCount (k : Component) : Component :=
  match k.op with
  | .constant => { k with count := if 0 < k.count then 1 else 0 }
  | .proposition =>
    if k.inputs.isEmpty || k.count = unset then { k with count := 0 } else k
  | _ => if k.count = unset then { k with count := 0 } else k

/-- Derives the initial state: with init true and all bases and inputs false, it is what the
transitions read. Then init is switched off again, so that the counts fit. -/
def deriveInitialState (net : Network) : Checked Network := do
  let some init := net.init | throw (net.invariant net.terminal .initialStateDerived)
  let net := net.mapComponents seedCount
  let net ← net.update init fun k => { k with count := 1 }
  let net ← net.recount net.sinks false
  let initialState ← net.transitions.mapM fun t => do return (← net.get t).value
  -- init is true before the first state only
  let (net, _) ← Network.propagate { net with initialState } init false
  return net

def foldListedConstants (net : Network) : Observed Network :=
  let constants := (net.components.filter fun (_, k) => k.op = .constant).map (·.1)
  constants.foldlM (fun net c => do
    match net.get? c with
    | none => return net
    | some k => return (← net.foldConstant c (decide (0 < k.count))).1) net

def foldInit (net : Network) : Observed Network := do
  match net.init with
  | none => return net
  | some init =>
    let (net, _) ← Network.foldConstant { net with init := none } init false
    net.dropComponents [init]

def foldDanglers (net : Network) : Observed Network :=
  net.danglers.foldlM (fun net d => do
    match net.get? d with
    | none => return net
    | some k =>
      if k.inputs.isEmpty then return (← net.foldConstant d k.value).1 else return net) net

def foldUnpairedInputs (net : Network) : Observed Network := do
  let isPaired (i : CompId) : Checked Bool := do
    return ((← net.get i).proposition?.bind (·.pairedLegal)).isSome
  let marked ← net.inputs.mapM fun i => do return (i, ← isPaired i)
  let (paired, unpaired) := marked.partition (·.2)
  let net ← unpaired.foldlM (fun net (i, _) => do
    let (net, _) ← net.foldConstant i false
    net.dropComponents [i]) net
  return { net with inputs := paired.map (·.1) }

def finish (net : Network) (opts : Options) (maxFanIn : Nat) : Observed Network := do
  let net ← if 0 < maxFanIn then do pure (← net.capFanIn maxFanIn).1 else pure net
  let net ← net.recount net.sinks false
  let net ← net.schedule
  net.verify opts.verify maxFanIn
  let net ← net.reorderBases
  let net ← net.reorderLegals
  let net ← net.reorderComponents
  net.verify opts.verify maxFanIn
  Observed.stage "compiled" net
  return net

def simplify (net : Network) (opts : Options) : Observed Network := do
  let (net, _) ← net.removePassThrough [.proposition] (net.protectedIds true)
  let (net, _) ← net.optimize { once := true }
  let (net, _) ← net.endAtLegals
  let net ← net.deriveInitialState
  Observed.stage "initial state" net
  -- constants and init matter only once
  let net ← net.foldListedConstants
  let net ← net.foldInit
  let (net, _) ← net.optimize { once := true }
  let net ← net.foldDanglers
  let net ← net.foldUnpairedInputs
  Observed.stage "constants" net
  let (net, _) ← net.removeUselessBases
  let (net, _) ← net.optimize { allPasses := opts.level = .full }
  return net

end Network

def Listing.compile (l : Listing) (opts : Options) : Observed Network := do
  let net ← l.build
  Observed.stage "build" net
  let net ← net.cutTransitions
  if opts.level = .raw then
    let (net, _) ← net.endAtLegals
    let net ← net.deriveInitialState
    net.finish opts 0
  else
    let net ← net.simplify opts
    net.finish opts opts.maxFanIn

end GameNet
