import GameNet.Network.Basic

/-!
What the passes of the optimizer share.

A pass changes a network and says how many changes it made.
-/

namespace GameNet.Network

/-- Visits the components that are there at the start, in ascending order, as far as they still
exist, and counts the visits that change the network. -/
def sweep (net : Network) (visit : Network → CompId → Component → Checked (Option Network)) :
    Checked (Network × Nat) :=
  net.ids.foldlM (fun (net, n) c => do
    match net.get? c with
    | none => return (net, n)
    | some k =>
      match ← visit net c k with
      | some net => return (net, n + 1)
      | none => return (net, n)) (net, 0)

def refresh (net : Network) (c : CompId) : Checked Network := do
  let k ← net.get c
  let n ← k.inputs.foldlM (fun n i => do return if (← net.get i).value then n + 1 else n) (0 : Int)
  return net.modify c fun k =>
    let k := k.fitThresholds
    if k.isGate then { k with count := n } else k

/-- Removes an edge and keeps the count of a gate at its end in step. -/
def dropEdge (net : Network) (a b : CompId) : Checked Network := do
  -- the value at the source is read before the edge goes
  let on := (← net.get a).value
  let net ← net.unlink a b
  net.update b fun k =>
    if on && decide (0 < k.count) && k.isGate then { k with count := k.count - 1 } else k

def replaceInput (net : Network) (o old new : CompId) : Checked Network :=
  net.update o fun k => { k with inputs := replaceFirst old new k.inputs }

def replaceOutput (net : Network) (i old new : CompId) : Checked Network :=
  net.update i fun k => { k with outputs := replaceFirst old new k.outputs }

def pushOutput (net : Network) (i o : CompId) : Checked Network :=
  net.update i fun k => { k with outputs := k.outputs ++ [o] }

def fitAllThresholds (net : Network) : Network := net.mapComponents Component.fitThresholds

end GameNet.Network
