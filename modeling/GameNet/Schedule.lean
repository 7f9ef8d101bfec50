import GameNet.Event
import GameNet.Eval.Forward

/-!
Evaluation levels.

Level 0 holds bases, inputs, init and constants, and every other component stands one level past the
latest of its inputs. Transitions and legals come last, then the goals that found no level.
-/

namespace GameNet

namespace Schedule

def sources (net : Network) : List CompId :=
  CompId.sortedSet (net.bases ++ net.inputs ++ net.init.toList ++
    (net.components.filter fun (_, k) => k.op = .constant).map (·.1))

structure State where
  /-- the levels so far, the latest first -/
  levels : List (List CompId)
  seen : List CompId
  candidates : List CompId

structure Round where
  ready : List CompId := []
  waiting : List CompId := []
  candidates : List CompId := []

/-- Sorts out one candidate. Legals and transitions get their levels at the end. -/
def consider (net : Network) (late seen : List CompId) (r : Round) (c : CompId) : Checked Round := do
  if seen.contains c || late.contains c || r.ready.contains c then return r
  let k ← net.get c
  if k.inputs.all seen.contains then
    return { r with ready := r.ready ++ [c], candidates := r.candidates ++ k.outputs }
  else if r.waiting.contains c then return r
  else return { r with waiting := r.waiting ++ [c], candidates := r.candidates ++ [c] }

def force (net : Network) (seen candidates : List CompId) :
    Checked (List CompId × List CompId) := do
  let gates ← candidates.filterM fun c => do return (← net.get c).isGate
  let gates := CompId.sortedSet gates
  let fed ← gates.mapM fun c => do
    return (← net.get c).outputs.filter fun o => !seen.contains o
  return (gates, fed.flatten)

def turn (net : Network) (late : List CompId) (s : State) : Observed (Turn State State) := do
  if s.candidates.isEmpty then return .done s
  let r ← (s.candidates.foldlM (consider net late s.seen) {} : Checked Round)
  if r.ready.isEmpty then
    -- whatever waits now waits for a cycle
    let (gates, fed) ← force net s.seen r.candidates
    if gates.isEmpty then return .done s
    Observed.warn (.forcedCycle s.levels.length gates.length)
    return .next ⟨gates :: s.levels, gates ++ s.seen, r.candidates ++ fed⟩
  else
    let level := CompId.sorted r.ready
    return .next ⟨level :: s.levels, level ++ s.seen, r.candidates⟩

def start (net : Network) : Checked State := do
  let first := sources net
  let fed ← first.mapM fun c => do
    let k ← net.get c
    if !k.inputs.isEmpty then throw (net.invariant c .sourceDriven)
    return k.outputs
  return { levels := [first], seen := first, candidates := fed.flatten }

/-- The last levels: transitions, legals, and goals that are not yet scheduled. What remains must
not have inputs; it is never evaluated. -/
def finish (net : Network) (legals : List CompId) (s : State) : Checked (List (List CompId)) := do
  let transitions := CompId.sorted net.transitions
  let left := net.ids.filter fun c =>
    !(s.seen.contains c || transitions.contains c || legals.contains c)
  -- a goal that nothing could schedule is still read at the end
  let (goals, left) := left.partition (net.isRole · .goal)
  for c in left do
    if !(← net.get c).inputs.isEmpty then throw (.compile (.schedule (net.site c)))
  return s.levels.reverse ++ [transitions, legals] ++ (if goals.isEmpty then [] else [goals])

end Schedule

namespace Network

/-- Every component gets the number of the last level that lists it, and 0 if none does. -/
def setLevels (net : Network) (levels : List (List CompId)) : Checked Network := do
  let net := net.mapComponents fun k => { k with level := 0 }
  let net ← levels.zipIdx.foldlM (fun net (level, n) =>
    level.foldlM (fun net c => net.update c fun k => { k with level := n }) net) net
  return { net with levels }

def schedule (net : Network) : Observed Network := do
  let legals := CompId.sortedSet net.legals
  let s ← Schedule.start net
  let s ← Loop.run (net.extent + 1) (Schedule.turn net (legals ++ net.transitions)) s
  net.setLevels (← Schedule.finish net legals s)

end Network

end GameNet
