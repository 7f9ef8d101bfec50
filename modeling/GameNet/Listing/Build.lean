import GameNet.Event
import GameNet.Listing.Basic
import GameNet.Term.Reader

/-!
From a listing to a network: the components are linked, then the propositions are sorted into the
lists that give them their parts in the game.
-/

namespace GameNet

/-! ## Propositions -/

def parseWord? (s : String) : Option Nat :=
  let digits := match s.toList with
    | '+' :: cs => cs
    | cs => cs
  if digits.isEmpty || !digits.all Char.isDigit then none
  else
    let n := digits.foldl (fun n d => n * 10 + (d.toNat - '0'.toNat)) 0
    if n < UInt32.size then some n else none

namespace Listing

def readTerm (text : String) : Checked Term :=
  match Term.parse text with
  | .ok t => pure t
  | .error .malformed => throw (.compile (.listing (.malformedTerm text)))
  | .error .trailing => throw (.compile (.listing (.trailingText text)))

def argumentHead? : PropRole → Option String
  | .input => some "does"
  | .legal => some "legal"
  | .goal => some "goal"
  | _ => none

/-- The player named by a term. A name that is no atom reads as the empty one. -/
def playerOf (roles : List String) (t : Term) : Except StructuralCause Nat :=
  match roles.findIdx? (· == t.name?.getD "") with
  | some p => pure p
  | none => throw (.unknownRole t.render)

def goalOf (t : Term) : Except StructuralCause Nat :=
  match t.name?.bind parseWord? with
  | none => throw .goalNotInteger
  | some v => if 100 < v then throw (.goalOutOfRange v) else pure v

/-- Checks the shape of a proposition's term against its role, and takes player, move and goal value
out of it. -/
def classify (roles : List String) (role : PropRole) (term : Term) :
    Except StructuralCause Proposition :=
  match role with
  | .base => if term.hasShape "true" 2 then pure { role, term } else throw .baseShape
  | .init | .terminal =>
    if term.name? = some role.tag then pure { role, term } else throw (.notBareAtom role.tag)
  | .other => pure { role, term }
  | .input | .legal | .goal =>
    let head := (argumentHead? role).getD ""
    match term.hasShape head 3, term.nth? 1, term.nth? 2 with
    | true, some r, some x => do
      let player ← playerOf roles r
      if role = .goal then
        return { role, term, player := some player, goal := some (← goalOf x) }
      else
        return { role, term, player := some player, move := some x }
    | _, _, _ => throw (.argumentShape role.tag head)

/-! ## Components -/

def kindOf (roles : List String) (raw : RawComponent) : Checked Kind :=
  match raw.op, raw.label with
  | .proposition, some (role, text) => do
    let term ← readTerm text
    match classify roles role term with
    | .ok p => pure (.proposition p)
    | .error cause =>
      throw (.compile (.structural ⟨raw.id.toNat, Op.proposition.name, some text⟩ cause))
  | .proposition, none => throw (.compile (.listing (.untagged raw.id.toNat)))
  | .and, _ => pure .and
  | .or, _ => pure .or
  | .not, _ => pure .not
  | .transition, _ => pure (.transition none)
  | .constant, _ => pure .constant

def addComponent (net : Network) (raw : RawComponent) : Checked Network := do
  let kind ← kindOf net.roles raw
  let k := { Component.new kind raw.count.toInt with
    inputs := raw.inputs.map (·.toNat), outputs := raw.outputs.map (·.toNat) }
  match net.insert? raw.id.toNat k with
  | some net => pure net
  | none => throw (.compile (.listing (.duplicateId raw.id.toNat)))

end Listing

namespace Network

/-! ## Edges -/

def checkEdgesOf (net : Network) (c : CompId) (k : Component) : Checked Unit := do
  for o in k.outputs do
    match net.get? o with
    | none => throw (net.structural c (.outputMissing o))
    | some ok => if !ok.inputs.contains c then throw (net.structural c (.outputUnanswered o))
  for i in k.inputs do
    match net.get? i with
    | none => throw (net.structural c (.inputMissing i))
    | some ik => if !ik.outputs.contains c then throw (net.structural c (.inputUnanswered i))

def checkEdges (net : Network) : Checked Unit :=
  net.components.forM fun (c, k) => net.checkEdgesOf c k

/-! ## Parts in the game -/

def withRole (net : Network) (r : PropRole) : List CompId :=
  (net.components.filter fun (_, k) => k.hasRole r).map (·.1)

def recordBase (net : Network) (b : CompId) : Checked (CompId × Network) := do
  match (← net.get b).inputs with
  | [t] =>
    if (← net.op t) ≠ .transition then throw (net.structural b .baseNotDriven)
    let k ← net.get t
    if 1 < k.inputs.length then throw (net.structural t .transitionManyInputs)
    if k.drivenBase?.isSome then throw (net.structural t .transitionShared)
    return (t, net.modify t fun k => { k with kind := .transition (some b) })
  | _ => throw (net.structural b .baseNotDriven)

def recordBases (net : Network) (bases : List CompId) : Checked (List CompId × Network) := do
  let (transitions, net) ← bases.foldlM (fun (ts, net) b => do
    let (t, net) ← net.recordBase b
    return (ts ++ [t], net)) ([], net)
  match net.components.find? fun (_, k) => k.op = .transition ∧ k.drivenBase?.isNone with
  | some (t, _) => throw (net.structural t .transitionIdle)
  | none => return (transitions, net)

def recordTerminal (net : Network) : Checked Network :=
  match net.withRole .terminal with
  | [t] => pure { net with terminal := t }
  | [] => throw (.compile .noTerminal)
  | _ :: t :: _ => throw (net.structural t .secondTerminal)

/-- A network without an init proposition gets one of its own. -/
def recordInit (net : Network) : Observed Network :=
  match net.withRole .init with
  | [i] => pure { net with init := some i }
  | [] => do
    Observed.warn .syntheticInit
    let (i, net) := net.add (.proposition { role := .init, term := .atom "init" }) 0
    return { net with init := some i }
  | _ :: i :: _ => throw (net.structural i .secondInit)

abbrev MoveKey := Nat × Term

def inputsByMove (net : Network) (inputs : List CompId) : Checked (List (MoveKey × CompId)) :=
  inputs.foldlM (fun table i =>
    match (net.get? i).bind (·.proposition?) with
    | some { player := some p, move := some m, .. } =>
      if (table.lookup (p, m)).isSome then throw (net.structural i .duplicateInput)
      else pure (table ++ [((p, m), i)])
    | _ => pure table) []

/-- Pairs a legal with the input for the same move of the same player. A legal without one becomes a
proposition of no special role. -/
def recordLegal (table : List (MoveKey × CompId)) (net : Network) (players : List Player)
    (l : CompId) : Observed (Network × List Player) := do
  match (← net.get l).proposition? with
  | none => return (net, players)
  | some p =>
    let player := p.player.getD 0
    match p.move.bind fun m => table.lookup (player, m) with
    | some i =>
      if (((← net.get i).proposition?).bind (·.pairedLegal)).isSome then
        throw (net.structural l .duplicatePairing)
      let net := net.modify i (·.mapProposition fun p => { p with pairedLegal := some l })
      let net := net.modify l (·.mapProposition fun p => { p with pairedInput := some i })
      return (net, players.modify player fun info =>
        { info with inputs := info.inputs ++ [i], legals := info.legals ++ [l] })
    | none =>
      Observed.warn (.orphanLegal l ((net.termText? l).getD ""))
      return (net.modify l (·.mapProposition fun p => { p with role := .other }), players)

def recordGoal (net : Network) (players : List Player) (g : CompId) : List Player :=
  match ((net.get? g).bind (·.proposition?)).bind (·.player) with
  | some p => players.modify p fun info => { info with goals := info.goals ++ [g] }
  | none => players

def record (net : Network) : Observed Network := do
  let bases := net.withRole .base
  let inputs := net.withRole .input
  let legals := net.withRole .legal
  let goals := net.withRole .goal
  let (transitions, net) ← net.recordBases bases
  for i in inputs do
    if !(← net.get i).inputs.isEmpty then throw (net.structural i .inputDriven)
  let net ← net.recordTerminal
  let net ← net.recordInit
  -- a legal is paired with the input for the same move of the same player
  let table ← net.inputsByMove inputs
  let players := net.roles.map fun name => { name : Player }
  let (net, players) ← legals.foldlM (fun (net, players) l => recordLegal table net players l)
    (net, players)
  let players := goals.foldl net.recordGoal players
  return { net with bases, transitions, inputs, players }

end Network

def Listing.assemble (l : Listing) : Checked Network := do
  let net ← l.components.toList.foldlM addComponent { roles := l.roles }
  net.checkEdges
  return net

def Listing.build (l : Listing) : Observed Network := do
  let net ← l.assemble
  (net.mapComponents Component.fitThresholds).record

end GameNet
