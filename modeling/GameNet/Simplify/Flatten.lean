import GameNet.Simplify.Basic

/-!
Double negations, and gates that feed gates of their own kind only.
-/

namespace GameNet.Network

def doublyNegated? (net : Network) (c : CompId) (k : Component) : Checked (Option CompId) := do
  if k.op ≠ .not || k.outputs.isEmpty then return none
  match k.inputs with
  | [inner] =>
    let ik ← net.get inner
    match decide (ik.op = .not), ik.inputs with
    | true, [x] => return if x = c || k.outputs.contains x then none else some x
    | _, _ => return none
  | _ => return none

def removeDoubleNegations (net : Network) : Checked (Network × Nat) :=
  net.sweep fun net c k => do
    match ← net.doublyNegated? c k with
    | none => return none
    | some x =>
      let net ← net.isolate c
      let net ← k.outputs.foldlM (fun net o => net.link x o) net
      return some (net.remove c)

/-- Whether a gate has inputs and outputs, and all outputs are gates of its own kind that are not its
inputs too. -/
def mergesForward (net : Network) (op : Op) (c : CompId) (k : Component) : Checked Bool := do
  if k.op ≠ op || k.outputs.isEmpty || k.inputs.isEmpty then return false
  let same ← k.outputs.allM fun o => do return decide ((← net.op o) = op)
  return same && !k.outputs.any fun o => o == c || k.inputs.contains o

def linkMissing (net : Network) (inputs : List CompId) (o : CompId) : Checked Network :=
  inputs.foldlM (fun net i => do
    if (← net.get o).inputs.contains i then return net else net.link i o) net

/-- A gate whose outputs are all gates of its kind hands its inputs to them, as in
`and (and a b) c`, which becomes `and a b c`. -/
def flatten (net : Network) (op : Op) : Checked (Network × Nat) :=
  net.sweep fun net c k => do
    if !(← net.mergesForward op c k) then return none
    let inputs := CompId.sortedSet k.inputs
    let net := (← net.isolate c).remove c
    let net ← (CompId.sortedSet k.outputs).foldlM (fun net o => do
      (← net.linkMissing inputs o).refresh o) net
    return some net

end GameNet.Network
