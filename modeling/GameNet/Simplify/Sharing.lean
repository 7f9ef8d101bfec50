import GameNet.Simplify.Basic

/-!
Sharing: gates of one kind with the same inputs become one gate.
-/

namespace GameNet.Network

abbrev GateKey := Op × List CompId

def gateKey (k : Component) : GateKey := (k.op, CompId.sorted k.inputs)

/-- Hands the outputs of `c` over to `twin` and removes `c`. An output that both feed keeps a single
edge. -/
def mergeInto (net : Network) (c twin : CompId) (outputs : List CompId) : Checked Network := do
  let net ← outputs.foldlM (fun net o => do
    if (← net.get twin).outputs.contains o then net.dropEdge twin o else return net) net
  let inputs := (← net.get c).inputs
  let net ← inputs.foldlM (fun net i =>
    net.update i fun k => { k with outputs := k.outputs.erase c }) net
  let net ← outputs.foldlM (fun net o => do
    (← net.replaceInput o c twin).pushOutput twin o) net
  return net.remove c

def shareGates (net : Network) : Checked (Network × Nat) := do
  let (net, _, total) ← net.ids.foldlM (fun ((net, seen, n) : Network × List (GateKey × CompId) × Nat)
      c => do
    match net.get? c with
    | none => return (net, seen, n)
    | some k =>
      if !k.isGate || k.inputs.isEmpty then return (net, seen, n)
      -- a gate seen before may have been merged away since
      match (seen.lookup (gateKey k)).filter net.contains with
      | none => return (net, (gateKey k, c) :: seen, n)
      | some twin => return (← net.mergeInto c twin k.outputs, seen, n + 1)) (net, [], 0)
  return (net, total)

end GameNet.Network
