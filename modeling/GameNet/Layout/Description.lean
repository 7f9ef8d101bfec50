import GameNet.Json.Basic
import GameNet.Layout.Order
import GameNet.Verify

/-!
The flat description of a network: tables from which a machine elsewhere can be set up.
-/

namespace GameNet

structure Description.Sizes where
  roles : Nat
  bases : Nat
  transitions : Nat
  components : Nat
  outputs : Nat
  levels : Nat
  deriving DecidableEq, Repr

structure Description.Role where
  index : Nat
  name : String
  inputStart : Option CompId
  legalStart : Option CompId
  goalStart : Option CompId
  moves : Nat
  goals : Nat
  deriving DecidableEq, Repr

structure Description.Row where
  id : CompId
  reqFalse : Int
  reqTrue : Int
  /-- where the outputs begin in the output table, and how many there are -/
  outputStart : Nat
  outputs : Nat
  count : Int
  sign : Int
  level : Nat
  deriving DecidableEq, Repr

structure Description.Label where
  id : CompId
  kind : String
  term : String
  move : String
  goal : Option Nat
  deriving DecidableEq, Repr

structure Description where
  sizes : Description.Sizes
  roles : List Description.Role
  rows : List Description.Row
  /-- the outputs of all components, in ascending order each, with an absent entry after each -/
  outputs : List (Option CompId)
  labels : List Description.Label
  initialState : List Bool
  gates : Nat
  terminal : CompId
  deriving DecidableEq, Repr

namespace Description

def format : String := "propnet-0.01"

def roleOf (index : Nat) (p : Player) : Role where
  index
  name := p.name
  inputStart := p.inputs.head?
  legalStart := p.legals.head?
  goalStart := p.goals.head?
  moves := p.inputs.length
  goals := p.goals.length

def rowOf (outputStart : Nat) (c : CompId) (k : Component) : Row where
  id := c
  reqFalse := k.reqFalse
  reqTrue := k.reqTrue
  outputStart
  outputs := k.outputs.length
  count := k.count
  sign := k.sign
  level := k.level

/-- A transition carries the term of the base that it drives. -/
def labelOf (net : Network) (c : CompId) (k : Component) : Checked Label := do
  let blank : Label := ⟨c, k.op.name, "", "", none⟩
  match k.kind with
  | .proposition p =>
    return { blank with
      term := p.term.render, move := (p.move.map Term.render).getD "", goal := p.goal }
  | .transition (some b) =>
    return { blank with term := ((← net.get b).term?.map Term.render).getD "" }
  | _ => return blank

def runOf (k : Component) : List (Option CompId) :=
  (CompId.sorted k.outputs).map some ++ [none]

def rowsFrom (start : Nat) : List (CompId × Component) → List Row
  | [] => []
  | (c, k) :: rest => rowOf start c k :: rowsFrom (start + (runOf k).length) rest

def ofNetwork (net : Network) : Checked Description := do
  if net.capacity ≠ net.size then throw (net.invariant net.size .idGaps)
  let outputs := net.components.flatMap fun (_, k) => runOf k
  let labels ← net.components.mapM fun (c, k) => labelOf net c k
  return {
    sizes := {
      roles := net.players.length
      bases := net.bases.length
      transitions := net.transitions.length
      components := net.size
      outputs := outputs.length
      levels := net.levels.length }
    roles := net.players.zipIdx.map fun (p, i) => roleOf i p
    rows := rowsFrom 0 net.components
    outputs
    labels
    initialState := net.initialState
    gates := (net.components.filter fun (_, k) => k.isGate).length
    terminal := net.terminal }

def initialTerms (d : Description) : Checked (List String) :=
  (d.initialState.zipIdx.filter (·.1)).mapM fun (_, i) =>
    match d.labels[i]? with
    | some label => pure label.term
    | none => throw (.crash .indexOutOfRange)

/-! ## JSON -/

def optNat (n : Option Nat) : Json := (n.map Json.nat).getD (.int (-1))

def Role.toJson (r : Role) : Json :=
  .object
    [("index", .nat r.index), ("name", .text r.name), ("input_start", optNat r.inputStart),
     ("legal_start", optNat r.legalStart), ("goal_start", optNat r.goalStart),
     ("moves", .nat r.moves), ("goals", .nat r.goals)]

def Row.toJson (r : Row) : Json :=
  .array [.nat r.id, .int r.reqFalse, .int r.reqTrue, .nat r.outputStart, .nat r.outputs,
    .int r.count, .int r.sign, .nat r.level]

def Label.toJson (l : Label) : Json :=
  .array [.nat l.id, .text l.kind, .text l.term, .text l.move, optNat l.goal]

def Sizes.toJson (s : Sizes) : Json :=
  .object
    [("roles", .nat s.roles), ("bases", .nat s.bases), ("transitions", .nat s.transitions),
     ("components", .nat s.components), ("outputs", .nat s.outputs),
     ("topological_size", .nat s.levels)]

def toJson (d : Description) : Json :=
  .object
    [("format", .text format),
     ("create", d.sizes.toJson),
     ("roles", .array (d.roles.map Role.toJson)),
     ("components", .array (d.rows.map Row.toJson)),
     ("outputs", .array (d.outputs.map optNat)),
     ("meta", .array (d.labels.map Label.toJson)),
     ("initial_state", .array (d.initialState.map fun b => .nat (if b then 1 else 0))),
     ("control_flows", .nat d.gates),
     ("terminal", .nat d.terminal)]

end Description

def Network.describe (net : Network) (level : VerifyLevel) (maxFanIn : Nat) :
    Checked (Description × Network) := do
  let net ← net.reorderComponents
  net.verify level maxFanIn
  return (← Description.ofNetwork net, net)

end GameNet
