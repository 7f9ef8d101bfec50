import GameNet.Eval.Forward

/-!
Evaluation level by level: all changes queued for one level are applied before those of the next.
-/

namespace GameNet

structure Levels where
  pending : Array (Array Forward.Flip)
  deriving DecidableEq, Repr, Inhabited

namespace Levels

def new (net : Network) : Levels := ⟨Array.replicate (max net.levels.length 1) #[]⟩

def queue (lv : Levels) (level : Nat) (c : CompId) (delta : Int) : Levels :=
  let pending := lv.pending ++ Array.replicate (level + 1 - lv.pending.size) #[]
  ⟨pending.modify level (·.push (c, delta))⟩

def set (lv : Levels) (net : Network) (c : CompId) (value : Bool) : Checked Levels := do
  let k ← net.get c
  let delta := k.wrap (Network.countOf value - k.count)
  if delta = 0 then return lv else return lv.queue k.level c delta

structure State where
  net : Network
  levels : Levels
  /-- the level that is being applied, and how many of its changes already are -/
  level : Nat := 0
  applied : Nat := 0

/-- Applies one change. A component whose value flips queues a change for each of its outputs, never
at an earlier level than its own. -/
def apply (s : State) (c : CompId) (delta : Int) : Checked State := do
  let ⟨net, levels, level, applied⟩ := s
  let k ← net.get c
  let k := { k with count := k.wrap (k.count + delta) }
  let net := net.modify c fun _ => k
  let levels ←
    if Forward.crossed k delta then
      k.outputs.foldlM (fun lv o => do
        return Levels.queue lv (max (← net.get o).level level) o (k.wrap (delta * k.sign))) levels
    else pure levels
  return ⟨net, levels, level, applied + 1⟩

def turn (s : State) : Checked (Turn State (Network × Levels)) := do
  match s.levels.pending[s.level]? with
  | none => return .done (s.net, s.levels)
  | some queued =>
    match queued[s.applied]? with
    | some (c, delta) => return .next (← apply s c delta)
    -- the level is done, and no later change is queued for it
    | none =>
      let pending := s.levels.pending.modify s.level fun _ => #[]
      return .next { s with levels := ⟨pending⟩, level := s.level + 1, applied := 0 }

def extent (lv : Levels) (net : Network) : Nat :=
  let queued := lv.pending.foldl (fun n level => n + level.size + 1) 0
  net.components.foldl (fun n (_, k) => n + k.level + 1) queued

def run (lv : Levels) (net : Network) : Checked (Network × Levels) :=
  Loop.run (net.extent + lv.extent net + 1) turn { net, levels := lv }

end Levels

end GameNet
