import GameNet.Loop
import GameNet.Network.Basic

/-!
Forward evaluation: a change of one component is pushed downstream, depth first, through every
component whose value flips.
-/

namespace GameNet

namespace Network

/-- The number of components and of listed edges; no walk through a network without cycles takes
more than two to this power steps. -/
def extent (net : Network) : Nat :=
  net.slots.foldl (fun n slot =>
    n + 1 + slot.elim 0 fun k => k.inputs.length + k.outputs.length) 0

end Network

structure Traffic where
  visits : Nat := 0
  fanning : Nat := 0
  deriving DecidableEq, Repr, Inhabited

namespace Forward

abbrev Flip := CompId × Int

def crossed (k : Component) (delta : Int) : Bool :=
  if 0 < delta then k.count == k.reqTrue else k.count == k.reqFalse

def touch (delta : Int) (s : Network × List Flip) (o : CompId) : Checked (Network × List Flip) := do
  let (net, stack) := s
  let k ← net.get o
  let k := { k with count := k.wrap (k.count + delta) }
  let net := net.modify o fun _ => k
  -- a flip that nothing reads needs no turn of its own
  if crossed k delta && !k.outputs.isEmpty then return (net, (o, k.wrap (delta * k.sign)) :: stack)
  else return (net, stack)

structure State where
  net : Network
  /-- the flips still to be pushed on, the latest first -/
  stack : List Flip
  traffic : Traffic := {}

def turn (s : State) : Checked (Turn State (Network × Traffic)) := do
  let ⟨net, stack, traffic⟩ := s
  match stack with
  | [] => return .done (net, traffic)
  | (c, delta) :: stack =>
    let outputs := (← net.get c).outputs
    let (net, stack) ← outputs.foldlM (touch delta) (net, stack)
    return .next ⟨net, stack, ⟨traffic.visits + 1, traffic.fanning + outputs.length⟩⟩

end Forward

namespace Network

/-- Adds `delta` to the count of every output of `c`, and goes on through every output whose value
flips. -/
def forward (net : Network) (c : CompId) (delta : Int) : Checked (Network × Traffic) :=
  Loop.run (net.extent + 1) Forward.turn { net, stack := [(c, delta)] }

def countOf (value : Bool) : Int := if value then 1 else 0

def propagate (net : Network) (c : CompId) (value : Bool) : Checked (Network × Option Traffic) := do
  let k ← net.get c
  if k.count = countOf value then return (net, none)
  else
    let net := net.modify c fun k => { k with count := countOf value }
    let (net, traffic) ← net.forward c (if value then 1 else -1)
    return (net, some traffic)

end Network

/-! ## Activity -/

structure Activity where
  flips : Nat := 0
  visits : Nat := 0
  fanning : Nat := 0
  deriving DecidableEq, Repr, Inhabited

def Activity.add (a : Activity) (t : Traffic) : Activity :=
  ⟨a.flips + 1, a.visits + t.visits, a.fanning + t.fanning⟩

abbrev ActivityLog := List (CompId × Activity)

namespace ActivityLog

def add (c : CompId) (t : Traffic) : ActivityLog → ActivityLog
  | [] => [(c, ({} : Activity).add t)]
  | (d, a) :: log =>
    if c < d then (c, ({} : Activity).add t) :: (d, a) :: log
    else if c = d then (d, a.add t) :: log
    else (d, a) :: add c t log

def get (log : ActivityLog) (c : CompId) : Activity := (log.lookup c).getD {}

end ActivityLog

namespace Network

def propagateLogged (net : Network) (log : ActivityLog) (c : CompId) (value : Bool) :
    Checked (Network × ActivityLog) := do
  match ← net.propagate c value with
  | (net, none) => return (net, log)
  | (net, some traffic) => return (net, log.add c traffic)

end Network

end GameNet
