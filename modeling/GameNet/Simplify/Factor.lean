import GameNet.Simplify.Basic

/-!
Factoring: when every input of a gate is a gate of one kind that feeds nothing else, the inputs that
they all share move into a new gate behind it, as in
`or (and a b) (and a c)`, which becomes `and a (or (and b) (and c))`.
-/

namespace GameNet.Network

def commonInputs (net : Network) : List CompId → Checked (List CompId)
  | [] => pure []
  | x :: xs => do
    let first := CompId.sortedSet (← net.get x).inputs
    xs.foldlM (fun common a => do
      let inputs := (← net.get a).inputs
      return common.filter inputs.contains) first

/-- The shared inputs of the gates feeding `c`, if they may be factored out: they must not touch `c`
otherwise, and must leave every gate something to compute. -/
def factorable? (net : Network) (x : Op) (c : CompId) (k : Component) :
    Checked (Option (List CompId)) := do
  let plain ← k.inputs.mapM fun i => do
    let ik ← net.get i
    return decide (ik.op = x) && ik.outputs.length == 1
  if k.inputs.length < 2 || !plain.all id then return none
  let common ← net.commonInputs k.inputs
  if common.isEmpty then return none
  if common.any fun i => i == c || k.inputs.contains i || k.outputs.contains i then return none
  -- a gate whose inputs are all shared would be left with none
  let emptied ← k.inputs.anyM fun a => do return (← net.get a).inputs.all common.contains
  return if emptied then none else some common

/-- Moves the shared inputs of the gates feeding `c` into a new gate behind `c`. -/
def factorOut (net : Network) (kind : Kind) (c : CompId) (k : Component) (common : List CompId) :
    Checked Network := do
  let net ← common.foldlM (fun net i =>
    k.inputs.foldlM (fun net a => net.unlink i a) net) net
  let net ← net.update c fun k => { k with outputs := [] }
  -- the new gate reads the shared inputs and `c`, and feeds what `c` fed
  let (g, net) := net.add kind unset
  let net ← common.foldlM (fun net i => net.link i g) net
  let net ← net.link c g
  let net ← k.outputs.foldlM (fun net o => do
    (← net.replaceInput o c g).pushOutput g o) net
  let net ← k.inputs.foldlM (fun net a => net.refresh a) net
  let net ← net.refresh c
  net.refresh g

def factor (net : Network) (x y : Op) : Checked (Network × Nat) :=
  match Kind.ofOp? x with
  | none => pure (net, 0)
  | some kind =>
    net.sweep fun net c k => do
      if k.op ≠ y then return none
      match ← net.factorable? x c k with
      | none => return none
      | some common => return some (← net.factorOut kind c k common)

end GameNet.Network
