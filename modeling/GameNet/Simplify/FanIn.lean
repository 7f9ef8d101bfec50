import GameNet.Eval.Forward
import GameNet.Simplify.Basic

/-!
Capping the fan-in: a gate with too many inputs becomes a tree of gates of its kind.
-/

namespace GameNet

namespace FanIn

def chunks (n : Nat) (ids : List CompId) : List (List CompId) :=
  go ids.length ids
where
  go : Nat → List CompId → List (List CompId)
    | 0, _ => []
    | _, [] => []
    | fuel + 1, ids => ids.take n :: go fuel (ids.drop n)

def gather (kind : Kind) (c : CompId) (net : Network) (chunk : List CompId) : Checked Network := do
  let (g, net) := net.add kind unset
  let net ← chunk.foldlM (fun net i => do
    let net ← net.replaceOutput i c g
    net.update g fun k => { k with inputs := k.inputs ++ [i] }) net
  let net ← net.link g c
  net.refresh g

def split (cap : Nat) (net : Network) (c : CompId) : Checked (Network × Nat) := do
  let k ← net.get c
  match k.kind with
  | .and | .or =>
    let net := net.modify c fun k => { k with inputs := [] }
    let runs := chunks cap k.inputs
    let net ← runs.foldlM (gather k.kind c) net
    -- the runs themselves may still be too many for one gate; the next turn sees to that
    return (← net.refresh c, runs.length)
  | _ => throw (net.invariant c .tooManyInputs)

def turn (cap : Nat) (s : Network × Nat) : Checked (Turn (Network × Nat) (Network × Nat)) := do
  let big := (s.1.components.filter fun (_, k) => cap < k.inputs.length).map (·.1)
  if big.isEmpty then return .done s
  return .next (← big.foldlM (fun ((net, total) : Network × Nat) c => do
    let (net, n) ← split cap net c
    return (net, total + n)) s)

end FanIn

/-- Leaves no component with more than `cap` inputs, where a cap below two counts as two. Returns the
number of new gates. -/
def Network.capFanIn (net : Network) (cap : Nat) : Checked (Network × Nat) :=
  Loop.run (net.extent + 1) (FanIn.turn (max cap 2)) (net, 0)

end GameNet
