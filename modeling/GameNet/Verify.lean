import GameNet.Eval.Recount
import GameNet.Options

/-!
Checks of a network: its structure, and its counts.
-/

namespace GameNet.Network

def verifyEdges (net : Network) (c : CompId) (k : Component) : Checked Unit := do
  for o in k.outputs do
    match net.get? o with
    | none => throw (net.invariant c (.outputGone o))
    | some ok => if !ok.inputs.contains c then throw (net.invariant c (.outputUnanswered o))
  for i in k.inputs do
    match net.get? i with
    | none => throw (net.invariant c (.inputGone i))
    | some ik => if !ik.outputs.contains c then throw (net.invariant c (.inputUnanswered i))

/-- Counts are in range, thresholds fit, and no fan-in is too large. A cap of 0 stands for none. -/
def verifyGate (net : Network) (maxFanIn : Nat) (c : CompId) (k : Component) : Checked Unit := do
  let fanIn := k.inputs.length
  if k.isGate && (k.count < 0 || fanIn < k.count) then
    throw (net.invariant c (.countRange k.count fanIn))
  if k.op = .and ∧ (k.reqTrue ≠ fanIn ∨ k.reqFalse ≠ k.reqTrue - 1) then
    throw (net.invariant c .andThresholds)
  if k.op = .not ∧ 1 < fanIn then throw (net.invariant c .notSeveralInputs)
  if 0 < maxFanIn ∧ maxFanIn < fanIn then throw (net.invariant c (.overCap fanIn maxFanIn))

def verifyBase (net : Network) (b t : CompId) : Checked Unit := do
  let some bk := net.get? b | throw (net.invariant b .baseGone)
  let some tk := net.get? t | throw (net.invariant t .transitionGone)
  if 1 < bk.inputs.length then throw (net.invariant b .baseManyInputs)
  if 1 < tk.inputs.length then throw (net.invariant t .transitionManyInputs)
  if tk.drivenBase? ≠ some b then throw (net.invariant t .transitionAstray)

/-- A legal has no outputs and is paired with the input at its position. -/
def verifyLegal (net : Network) (l i : CompId) : Checked Unit := do
  let some k := net.get? l | throw (net.invariant l .legalGone)
  if !k.outputs.isEmpty then throw (net.invariant l .legalOutputs)
  if k.proposition?.bind (·.pairedInput) ≠ some i then throw (net.invariant l .legalUnpaired)

def verifyPlayer (net : Network) (p : Player) : Checked Unit := do
  match p.legals with
  | [] => pure ()
  | first :: _ =>
    if p.legals.length ≠ p.inputs.length then
      throw (net.invariant first (.legalsUnaligned p.name p.legals.length p.inputs.length))
  (p.legals.zip p.inputs).forM fun (l, i) => net.verifyLegal l i

def checkInvariants (net : Network) (maxFanIn : Nat) : Checked Unit := do
  net.components.forM fun (c, k) => do
    net.verifyEdges c k
    net.verifyGate maxFanIn c k
  if net.bases.length ≠ net.transitions.length then
    throw (net.invariant net.terminal .basesUnaligned)
  (net.bases.zip net.transitions).forM fun (b, t) => net.verifyBase b t
  for i in net.inputs do
    if !net.contains i then throw (net.invariant i .moveGone)
  if !net.isRole net.terminal .terminal then throw (.compile .noTerminal)
  net.players.forM net.verifyPlayer

def checkCounts (net : Network) : Checked Unit := do
  discard <| net.recount net.sinks true

def verify (net : Network) (level : VerifyLevel) (maxFanIn : Nat) : Checked Unit :=
  match level with
  | .none => pure ()
  | .invariants => net.checkInvariants maxFanIn
  | .full => do
    net.checkInvariants maxFanIn
    net.checkCounts

end GameNet.Network
