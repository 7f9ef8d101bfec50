import GameNet.Event
import GameNet.Eval.Forward

/-!
Folding constants.

Once a component is known to be stuck at one value, everything downstream is told. An AND that loses
a true input needs one true input less, and an AND that loses a false one is false itself; an OR is
the other way round.
-/

namespace GameNet

namespace Constants

structure State where
  net : Network
  /-- components stuck at a value that their outputs do not know of yet, the latest first -/
  work : List (CompId × Bool)
  /-- legals that have lost an input edge, in the order in which they did -/
  legals : List CompId := []
  folded : Nat := 0

def dropInputs (net : Network) (o : CompId) : Network :=
  let inputs := (net.get? o).elim [] (·.inputs)
  let net := net.modify o fun k => { k with inputs := [] }
  inputs.foldl (fun net i => net.modify i fun k => { k with outputs := k.outputs.erase o }) net

/-- The component that is stuck lets go of its outputs; only propositions and transitions stay. -/
def detach (net : Network) (c : CompId) : Checked (List CompId × Network) := do
  let k ← net.get c
  match k.op with
  | .proposition | .transition => return (k.outputs, net.modify c fun k => { k with outputs := [] })
  | _ => return (k.outputs, net.remove c)

/-- Tells output `o`, which has just lost an edge, that the value at its other end was `v`. -/
def notify (s : State) (o : CompId) (k : Component) (v : Bool) : Checked State :=
  match k.op, v with
  -- one true input settles an OR, one false input settles an AND
  | .or, true => pure { s with net := dropInputs s.net o, work := (o, true) :: s.work }
  | .or, false => pure (if k.inputs.isEmpty then { s with work := (o, false) :: s.work } else s)
  | .and, false => pure { s with net := dropInputs s.net o, work := (o, false) :: s.work }
  -- without its true input an AND needs one less
  | .and, true =>
    let net := s.net.modify o fun k => { k with
      count := k.wrap (k.count - 1)
      reqTrue := k.wrap (k.reqTrue - 1)
      reqFalse := k.wrap (k.reqFalse - 1) }
    pure { s with net, work := if k.inputs.isEmpty then (o, true) :: s.work else s.work }
  | .not, v => pure { s with work := (o, !v) :: s.work }
  | .transition, _ => pure s
  | .proposition, v =>
    pure { s with
      legals := if k.hasRole .legal then s.legals ++ [o] else s.legals
      work := if k.outputs.isEmpty then s.work else (o, v) :: s.work }
  | .constant, _ => throw (s.net.invariant o .constantDriven)

def cut (c : CompId) (v : Bool) (s : State) (o : CompId) : Checked State :=
  match s.net.get? o with
  | none => pure s
  | some k =>
    if k.inputs.contains c then
      let k := { k with inputs := k.inputs.erase c }
      notify { s with net := s.net.modify o fun _ => k } o k v
    else pure s

def turn (s : State) : Checked (Turn State State) := do
  match s.work with
  | [] => return .done s
  | (c, v) :: work =>
    let (outputs, net) ← detach s.net c
    let s := { s with net, work, folded := s.folded + 1 }
    -- the last output is told first, so the first one ends up on top of the work
    return .next (← outputs.reverse.foldlM (cut c v) s)

def fold (s : State) (c : CompId) (v : Bool) : Checked State :=
  Loop.run (s.net.extent + 1) turn { s with work := [(c, v)] }

def freeInput? (net : Network) (k : Component) : Option CompId :=
  (k.proposition?.bind (·.pairedInput)).filter fun i => (net.get? i).any (·.inputs.isEmpty)

/-- Deals with the next legal: one stuck at true is reported, one stuck at false stops its input. -/
def legalTurn (s : State) : Observed (Turn State State) := do
  match s.legals with
  | [] => return .done s
  | l :: legals =>
    let s := { s with legals }
    let k ← s.net.get l
    if k.value then
      Observed.warn (.permanentLegal l ((s.net.termText? l).getD ""))
      return .next s
    match freeInput? s.net k with
    | none => return .next s
    | some i =>
      let (net, _) ← s.net.propagate i false
      return .next (← fold { s with net } i false)

end Constants

namespace Network

/-- Forces a component without inputs to a value and folds it away. The counts must agree with the
network. Returns the number of components folded. -/
def foldConstant (net : Network) (c : CompId) (v : Bool) : Observed (Network × Nat) := do
  let k ← net.get c
  if !k.inputs.isEmpty then throw (net.invariant c .foldedInputs)
  let net ← if k.isGate then
      if k.value = v then pure net else throw (net.invariant c .forcedValue)
    else do pure (← net.propagate c v).1
  let s ← Constants.fold { net, work := [] } c v
  let s ← Loop.run (net.extent + 1) Constants.legalTurn s
  return (s.net, s.folded)

end Network

end GameNet
