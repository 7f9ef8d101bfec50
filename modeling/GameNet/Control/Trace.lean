import GameNet.Eval.Forward

/-!
Tracing: what can be said of a component when the bases are not known.

A base is unknown until play, an input is true or false by the chosen moves.
-/

namespace GameNet

/-- What a trace knows of a component: its value, or that it depends on bases. -/
inductive Flow where
  | false
  | true
  | base
  deriving DecidableEq, Repr, Inhabited

def Flow.ofBool (b : Bool) : Flow := if b then .true else .false

namespace Flow

def any (fs : List Flow) : Flow :=
  if fs.contains .true then .true else if fs.contains .base then .base else .false

def all (fs : List Flow) : Flow :=
  if fs.contains .false then .false else if fs.contains .base then .base else .true

def not : Flow → Flow
  | .true => .false
  | .false => .true
  | .base => .base

end Flow

inductive Traced where
  | flow (f : Flow)
  | input (c : CompId)
  deriving DecidableEq, Repr, Inhabited

structure Tracer where
  /-- the inputs taken as true, or none if no input may be looked at -/
  moves : Option (List CompId)
  known : List (CompId × Flow) := []
  /-- the bases met so far, the latest first -/
  bases : List CompId := []

namespace Tracer

def strict : Tracer := { moves := none }

def given (moves : List CompId) : Tracer := { moves := some moves }

def known? (t : Tracer) (c : CompId) : Option Flow := t.known.lookup c

/-- A component that is not known yet lies on a cycle and reads as a base. -/
def flowOf (t : Tracer) (c : CompId) : Flow := (t.known? c).getD .base

def learn (t : Tracer) (c : CompId) (f : Flow) : Tracer := { t with known := (c, f) :: t.known }

def firstOr (k : Component) (flows : List Flow) : Flow := flows.head?.getD (.ofBool k.value)

def eval (t : Tracer) (c : CompId) (k : Component) : Except CompId Tracer :=
  let flows := k.inputs.map t.flowOf
  match k.op with
  | .or => .ok (t.learn c (.any flows))
  | .and => .ok (t.learn c (.all flows))
  | .not => .ok (t.learn c ((flows.head?.map Flow.not).getD (.ofBool k.value)))
  | .transition | .constant => .ok (t.learn c (firstOr k flows))
  | .proposition =>
    match k.role? with
    | some .base => .ok ({ t with bases := c :: t.bases }.learn c .base)
    | some .input =>
      match t.moves with
      | none => .error c
      | some moves => .ok (t.learn c (.ofBool (moves.contains c)))
    | _ => .ok (t.learn c (firstOr k flows))

structure State where
  tracer : Tracer
  /-- components still to be looked at; a true mark says that the inputs already have been -/
  stack : List (CompId × Bool)
  opened : List CompId := []

def turn (net : Network) (c : CompId) (s : State) : Checked (Turn State (Tracer × Traced)) := do
  match s.stack with
  | [] => return .done (s.tracer, .flow (s.tracer.flowOf c))
  | (d, expanded) :: stack =>
    if (s.tracer.known? d).isSome then return .next { s with stack }
    else if expanded then
      match s.tracer.eval d (← net.get d) with
      | .ok tracer => return .next { s with tracer, stack }
      | .error i => return .done (s.tracer, .input i)
    -- met again while it is open: it lies on a cycle
    else if s.opened.contains d then return .next { s with stack }
    else
      let opened := d :: s.opened
      let fresh := (← net.get d).inputs.filter fun i =>
        (s.tracer.known? i).isNone && !opened.contains i
      return .next { s with stack := fresh.map (·, false) ++ (d, true) :: stack, opened }

/-- The flow of a component. What is learned on the way is kept, also if an input ends the query. -/
def value (t : Tracer) (net : Network) (c : CompId) : Checked (Tracer × Traced) :=
  Loop.run (net.extent + 1) (turn net c) { tracer := t, stack := [(c, false)] }

end Tracer

def Network.controls (net : Network) : Checked (List CompId) :=
  net.transitions.filterM fun t => do
    match ← Tracer.strict.value net t with
    | (_, .flow _) => return true
    | (_, .input _) => return false

end GameNet
