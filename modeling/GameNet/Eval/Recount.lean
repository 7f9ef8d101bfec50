import GameNet.Eval.Forward

/-!
Counting from scratch: the counts of some components and of all that feeds them are computed anew from
the components without inputs.
-/

namespace GameNet

namespace Recount

structure State where
  net : Network
  /-- components still to be looked at; a true mark says that the inputs already have been -/
  stack : List (CompId × Bool)
  opened : List CompId := []
  closed : List CompId := []

/-- The value of an input. In the middle of a cycle it must have had a count before. -/
def inputValue (s : State) (i : CompId) : Checked Bool := do
  let k ← s.net.get i
  if s.opened.contains i && !s.closed.contains i && k.count = unset then
    throw (s.net.invariant i .unsetCycle)
  return k.value

def leaf (s : State) (c : CompId) (k : Component) : Checked Int :=
  if k.count = unset then throw (s.net.invariant c .unsetLeaf) else pure k.count

def follow (s : State) (c : CompId) (k : Component) (many : InvariantCause) : Checked Int :=
  match k.inputs with
  | [] => leaf s c k
  | [i] => do return Network.countOf (← inputValue s i)
  | _ => throw (s.net.invariant c many)

/-- The count of a component whose inputs are up to date. A proposition fed by a transition keeps
its count. -/
def count (s : State) (c : CompId) : Checked Int := do
  let k ← s.net.get c
  match k.op with
  | .and | .or => k.inputs.foldlM (fun n i => do return if ← inputValue s i then n + 1 else n) 0
  | .not => follow s c k .notManyInputs
  | .transition => follow s c k .transitionManyInputs
  | .constant => leaf s c k
  | .proposition =>
    match k.inputs with
    | [i] => do
      if (← s.net.op i) = .transition then leaf s c k else follow s c k .propositionManyInputs
    | _ => follow s c k .propositionManyInputs

/-- A component is looked at twice: to open its inputs, and to count once they are done. With
`compare`, a count that differs from the stored one is an error. -/
def turn (compare : Bool) (s : State) : Checked (Turn State Network) := do
  match s.stack with
  | [] => return .done s.net
  | (c, false) :: stack =>
    if s.opened.contains c then return .next { s with stack }
    else
      let opened := c :: s.opened
      -- the inputs go on top of the stack, so they are counted before `c`
      let fresh := (← s.net.get c).inputs.filter fun i => !opened.contains i
      return .next { s with stack := fresh.map (·, false) ++ (c, true) :: stack, opened }
  | (c, true) :: stack =>
    let n ← count { s with stack } c
    let k ← s.net.get c
    if compare && k.count ≠ n then
      throw (.compile (.countMismatch c k.op.name k.count n))
    let net := s.net.modify c fun k => { k with count := n }
    return .next { s with net, stack, closed := c :: s.closed }

end Recount

namespace Network

def recount (net : Network) (roots : List CompId) (compare : Bool) : Checked Network :=
  Loop.run (net.extent + roots.length + 1) (Recount.turn compare)
    { net, stack := roots.map (·, false) }

def sinks (net : Network) : List CompId :=
  (net.components.filter fun (_, k) => k.outputs.isEmpty && !k.inputs.isEmpty).map (·.1)

end Network

/-! ## Dependencies -/

namespace Dependencies

structure State where
  stack : List CompId
  seen : List CompId := []
  found : List CompId := []

def turn (net : Network) (s : State) : Checked (Turn State (List CompId)) := do
  match s.stack with
  | [] => return .done s.found
  | c :: stack =>
    if s.seen.contains c then return .next { s with stack }
    else
      let k ← net.get c
      return .next {
        stack := k.inputs.reverse ++ stack
        seen := c :: s.seen
        found := if k.inputs.isEmpty then c :: s.found else s.found }

end Dependencies

def Network.dependencies (net : Network) (c : CompId) : Checked (List CompId) := do
  return CompId.sorted (← Loop.run (net.extent + 1) (Dependencies.turn net) { stack := [c] })

end GameNet
