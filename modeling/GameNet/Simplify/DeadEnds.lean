import GameNet.Eval.Forward
import GameNet.Simplify.Basic

/-!
Removing dead ends: components without outputs that nothing needs.
-/

namespace GameNet

namespace DeadEnds

structure State where
  net : Network
  /-- components that may be dead, the next one first -/
  suspects : List CompId
  removed : Nat := 0

def release (c : CompId) (s : Network × List CompId) (i : CompId) : Network × List CompId :=
  let (net, suspects) := s
  match net.get? i with
  | none => (net, suspects)
  | some k =>
    let outputs := k.outputs.erase c
    (net.modify i fun k => { k with outputs },
     if outputs.isEmpty then i :: suspects else suspects)

def turn (keep : List CompId) (s : State) : Checked (Turn State (Network × Nat)) := do
  match s.suspects with
  | [] => return .done (s.net, s.removed)
  | c :: suspects =>
    match s.net.get? c with
    | none => return .next { s with suspects }
    | some k =>
      if keep.contains c || k.op = .constant || !k.outputs.isEmpty then
        return .next { s with suspects }
      else
        let (net, suspects) := k.inputs.foldl (release c) (s.net.remove c, suspects)
        return .next ⟨net, suspects, s.removed + 1⟩

end DeadEnds

namespace Network

/-- Removes components without outputs, and those that lose their last output by that, except for
the ones to keep and for constants. -/
def removeDeadEnds (net : Network) (keep : List CompId) : Checked (Network × Nat) :=
  let suspects := (net.components.filter fun (_, k) => k.outputs.isEmpty).map (·.1)
  Loop.run (net.extent + 1) (DeadEnds.turn keep) { net, suspects := suspects.reverse }

end Network

end GameNet
