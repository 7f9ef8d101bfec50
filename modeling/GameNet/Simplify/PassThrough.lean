import GameNet.Simplify.Basic

/-!
Splicing out components that only pass their one input on, and repeated edges.
-/

namespace GameNet.Network

def spliceOut (net : Network) (c input : CompId) (outputs : List CompId) : Checked Network := do
  let net ← outputs.foldlM (fun net o => do
    let net ← net.update input fun k => { k with
      -- the first output takes the place of `c`, the others go to the end
      outputs := if k.outputs.contains c then replaceFirst c o k.outputs else k.outputs ++ [o] }
    net.replaceInput o c input) net
  return net.remove c

def removePassThrough (net : Network) (ops : List Op) (keep : List CompId) :
    Checked (Network × Nat) :=
  net.sweep fun net c k => do
    if !ops.contains k.op || keep.contains c then return none
    match k.inputs with
    | [input] =>
      if k.outputs.isEmpty || k.outputs.contains input || input = c then return none
      return some (← net.spliceOut c input k.outputs)
    | _ => return none

def dropRepeatedOutputs (net : Network) (c : CompId) : Checked (Network × Nat) := do
  let outputs := (← net.get c).outputs
  let (net, _, n) ← outputs.foldlM (fun ((net, seen, n) : Network × List CompId × Nat) o => do
    if seen.contains o then return (← net.dropEdge c o, seen, n + 1)
    else return (net, o :: seen, n)) (net, [], 0)
  return (net, n)

/-- Keeps one edge between each pair of components; returns the number of edges dropped. -/
def dropRepeatedEdges (net : Network) : Checked (Network × Nat) := do
  let (net, total) ← net.ids.foldlM (fun ((net, total) : Network × Nat) c => do
    let (net, n) ← net.dropRepeatedOutputs c
    return (net, total + n)) (net, 0)
  if total = 0 then return (net, 0)
  let net ← net.ids.foldlM (fun (net : Network) c => do
    if (← net.op c) = .and then net.refresh c else return net) net
  return (net, total)

end GameNet.Network
