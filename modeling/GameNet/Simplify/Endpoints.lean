import GameNet.Simplify.Basic

/-!
The ends of a network: legals and transitions are read by machines, and nothing inside one turn
evaluates through them.
-/

namespace GameNet.Network

/-- A legal with outputs hands them to a new OR between its input and itself. -/
def endAtLegal (net : Network) (l : CompId) : Checked (Option Network) := do
  let k ← net.get l
  if k.outputs.isEmpty then return none
  match k.inputs with
  | [input] =>
    let (g, net) := net.add .or unset
    let net ← net.replaceOutput input l g
    let outputs := (← net.get l).outputs
    let net := net.modify l fun k => { k with outputs := [] }
    let net ← outputs.foldlM (fun net o => net.replaceInput o l g) net
    let net ← net.update g fun k => { k with inputs := [input], outputs := l :: outputs }
    let net ← net.update l fun k => { k with inputs := [g] }
    return some (← net.refresh g)
  | _ => throw (net.structural l .legalInputs)

def endAtLegals (net : Network) : Checked (Network × Nat) :=
  net.legals.foldlM (fun (net, n) l => do
    match ← net.endAtLegal l with
    | some net => return (net, n + 1)
    | none => return (net, n)) (net, 0)

def cutTransition (net : Network) (t b : CompId) : Checked Network := do
  if (← net.get t).outputs ≠ [b] then throw (net.structural t .transitionOutputs)
  if (← net.get b).inputs ≠ [t] then throw (net.structural t .transitionOutputs)
  let net := net.modify t fun k => { k with outputs := [] }
  let net := net.modify b fun k => { k with inputs := [] }
  return net.modify t fun k => { k with kind := .transition (some b) }

/-- The base at the same position as a transition, or the transition at that of a base. -/
def partner (partners : List CompId) (i : Nat) : Checked CompId :=
  match partners[i]? with
  | some c => pure c
  | none => throw (.crash .indexOutOfRange)

def cutTransitions (net : Network) : Checked Network :=
  net.transitions.zipIdx.foldlM (fun net (t, i) => do
    net.cutTransition t (← partner net.bases i)) net

def isUselessBase (net : Network) (b t : CompId) : Checked Bool := do
  if (← net.get b).outputs.isEmpty then return (← net.get t).inputs.isEmpty
  else return false

structure KeptBases where
  bases : List CompId := []
  transitions : List CompId := []
  initialState : List Bool := []

def KeptBases.add (kept : KeptBases) (b t : CompId) (initial : Bool) : KeptBases :=
  ⟨kept.bases ++ [b], kept.transitions ++ [t], kept.initialState ++ [initial]⟩

def removeUselessBases (net : Network) : Checked (Network × Nat) := do
  let (net, kept, n) ← net.bases.zipIdx.foldlM
    (fun ((net, kept, n) : Network × KeptBases × Nat) (b, i) => do
      let t ← partner net.transitions i
      if ← net.isUselessBase b t then return ((net.remove b).remove t, kept, n + 1)
      else return (net, kept.add b t (net.initialState[i]?.getD false), n)) (net, {}, 0)
  if n = 0 then return (net, 0)
  return ({ net with
    bases := kept.bases, transitions := kept.transitions, initialState := kept.initialState }, n)

def danglers (net : Network) : List CompId :=
  (net.components.filter fun (_, k) => k.isGate && k.inputs.isEmpty).map (·.1)

end GameNet.Network
