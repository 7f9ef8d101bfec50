import GameNet.Network.Component
import GameNet.Sort

/-!
Networks: numbered components with edges between them, and the lists that say which component plays
which part in the game.

An edge is listed at both of its ends, once for each time it occurs.
-/

namespace GameNet

/-- What a network knows about one player. Inputs and legals are paired index for index. -/
structure Player where
  name : String
  inputs : List CompId := []
  legals : List CompId := []
  goals : List CompId := []
  deriving DecidableEq, Repr, Inhabited

structure Network where
  roles : List String := []
  slots : Array (Option Component) := #[]
  /-- aligned with `transitions` and `initialState` -/
  bases : List CompId := []
  inputs : List CompId := []
  transitions : List CompId := []
  players : List Player := []
  terminal : CompId := 0
  /-- present until the initial state has been derived -/
  init : Option CompId := none
  initialState : List Bool := []
  levels : List (List CompId) := []
  /-- the base that is fixed at true in a network made by a control split -/
  fixedBase : Option CompId := none
  deriving DecidableEq, Repr, Inhabited

def CompId.sorted (ids : List CompId) : List CompId := sortBy (fun a b => decide (a ≤ b)) ids

def CompId.dropRepeats : List CompId → List CompId
  | [] => []
  | [a] => [a]
  | a :: b :: rest => if a = b then dropRepeats (b :: rest) else a :: dropRepeats (b :: rest)

def CompId.sortedSet (ids : List CompId) : List CompId := dropRepeats (sorted ids)

namespace Network

/-! ## Components -/

/-- One more than the largest number ever given out. -/
def capacity (net : Network) : Nat := net.slots.size

def get? (net : Network) (c : CompId) : Option Component := (net.slots[c]?).join

def contains (net : Network) (c : CompId) : Bool := (net.get? c).isSome

def get (net : Network) (c : CompId) : Checked Component :=
  match net.get? c with
  | some k => pure k
  | none => throw (.crash (.noComponent c))

def components (net : Network) : List (CompId × Component) :=
  net.slots.toList.zipIdx.filterMap fun (k, c) => k.map (c, ·)

def ids (net : Network) : List CompId := net.components.map (·.1)

def size (net : Network) : Nat := net.slots.countP Option.isSome

def isEmpty (net : Network) : Bool := net.size == 0

def modify (net : Network) (c : CompId) (f : Component → Component) : Network :=
  { net with slots := net.slots.modify c (Option.map f) }

def update (net : Network) (c : CompId) (f : Component → Component) : Checked Network :=
  if net.contains c then pure (net.modify c f) else throw (.crash (.noComponent c))

def mapComponents (net : Network) (f : Component → Component) : Network :=
  { net with slots := net.slots.map (Option.map f) }

def reserve (net : Network) (c : CompId) : Network :=
  { net with slots := net.slots ++ Array.replicate (c + 1 - net.slots.size) none }

def insert? (net : Network) (c : CompId) (k : Component) : Option Network :=
  if net.contains c then none
  else
    let net := net.reserve c
    some { net with slots := net.slots.set! c (some k) }

def add (net : Network) (kind : Kind) (count : Int) : CompId × Network :=
  (net.slots.size, { net with slots := net.slots.push (some (.new kind count)) })

def remove (net : Network) (c : CompId) : Network :=
  { net with slots := net.slots.modify c fun _ => none }

def op (net : Network) (c : CompId) : Checked Op := do return (← net.get c).op

/-! ## Edges -/

def link (net : Network) (a b : CompId) : Checked Network := do
  let net ← net.update a fun k => { k with outputs := k.outputs ++ [b] }
  net.update b fun k => { k with inputs := k.inputs ++ [a] }

/-- Removes one edge from `a` to `b`, at each end the first one listed. -/
def unlink (net : Network) (a b : CompId) : Checked Network := do
  let net ← net.update a fun k => { k with outputs := k.outputs.erase b }
  net.update b fun k => { k with inputs := k.inputs.erase a }

def isolate (net : Network) (c : CompId) : Checked Network := do
  let k ← net.get c
  let net := net.modify c fun k => { k with inputs := [], outputs := [] }
  let net := k.inputs.foldl (fun net i =>
    net.modify i fun k => { k with outputs := k.outputs.erase c }) net
  return k.outputs.foldl (fun net o =>
    net.modify o fun k => { k with inputs := k.inputs.erase c }) net

def replaceFirst (old new : CompId) : List CompId → List CompId
  | [] => []
  | c :: cs => if c = old then new :: cs else c :: replaceFirst old new cs

/-! ## Parts in the game -/

def legals (net : Network) : List CompId := net.players.flatMap (·.legals)

def goals (net : Network) : List CompId := net.players.flatMap (·.goals)

def inbound (net : Network) : List CompId :=
  CompId.sortedSet (net.bases ++ net.inputs ++ net.init.toList)

def outbound (net : Network) (withGoals : Bool) : List CompId :=
  CompId.sortedSet
    (net.legals ++ (if withGoals then net.goals else []) ++ net.transitions ++ [net.terminal])

/-- The components that removing dead ends never touches. -/
def protectedIds (net : Network) (withGoals : Bool) : List CompId :=
  CompId.sortedSet (net.inbound ++ net.outbound withGoals)

def roleIndex? (net : Network) (name : String) : Option Nat :=
  net.roles.findIdx? (· == name)

def isRole (net : Network) (c : CompId) (r : PropRole) : Bool :=
  (net.get? c).any (·.hasRole r)

/-! ## Texts -/

def kindName (net : Network) (c : CompId) : String :=
  (net.get? c).elim "missing" (·.op.name)

def termText? (net : Network) (c : CompId) : Option String :=
  ((net.get? c).bind (·.term?)).map (·.render)

def moveText? (net : Network) (c : CompId) : Option String :=
  (((net.get? c).bind (·.proposition?)).bind (·.move)).map (·.render)

def site (net : Network) (c : CompId) : Site := ⟨c, net.kindName c, net.termText? c⟩

def structural (net : Network) (c : CompId) (cause : StructuralCause) : Fault :=
  .compile (.structural (net.site c) cause)

def invariant (net : Network) (c : CompId) (cause : InvariantCause) : Fault :=
  .compile (.invariant (net.site c) cause)

end Network

end GameNet
