import GameNet.Event
import GameNet.Simplify.DeadEnds
import GameNet.Simplify.Factor
import GameNet.Simplify.Flatten
import GameNet.Simplify.PassThrough
import GameNet.Simplify.Sharing

/-!
The optimizer: all passes in turn, once or until none of them changes anything.
-/

namespace GameNet

namespace Optimize

structure Mode where
  once : Bool := false
  /-- with factoring, double negation and flattening -/
  allPasses : Bool := false
  deriving DecidableEq, Repr

structure Pass where
  name : String
  run : Network → Checked (Network × Nat)

/-- The passes of one round, in order. What is protected is looked up once, at its start. -/
def passes (mode : Mode) (keep : List CompId) : List Pass :=
  let extra (ps : List Pass) := if mode.allPasses then ps else []
  [⟨"unlink_deadends", (·.removeDeadEnds keep)⟩,
   ⟨"subexpr_elimination", Network.shareGates⟩] ++
  extra
    [⟨"and_over_or", (·.factor .and .or)⟩,
     ⟨"or_over_and", (·.factor .or .and)⟩,
     ⟨"or_over_or", (·.factor .or .or)⟩,
     ⟨"and_over_and", (·.factor .and .and)⟩,
     ⟨"subexpr_elimination", Network.shareGates⟩] ++
  [⟨"unlink_passthrough", (·.removePassThrough [.and, .or, .proposition] keep)⟩,
   ⟨"sanitize_outputs", Network.dropRepeatedEdges⟩] ++
  extra
    [⟨"double_negation", Network.removeDoubleNegations⟩,
     ⟨"flatten_and", (·.flatten .and)⟩,
     ⟨"flatten_or", (·.flatten .or)⟩]

def runPass (s : Network × Nat) (p : Pass) : Observed (Network × Nat) := do
  let (net, n) ← p.run s.1
  Observed.tell (.pass p.name n)
  return (net, s.2 + n)

def round (mode : Mode) (net : Network) : Observed (Network × Nat) :=
  (passes mode (net.protectedIds true)).foldlM runPass (net, 0)

def turn (mode : Mode) (s : Network × Nat) : Observed (Turn (Network × Nat) (Network × Nat)) := do
  let (net, n) ← round mode s.1
  let s := (net, s.2 + n)
  return if mode.once || n == 0 then .done s else .next s

end Optimize

def Network.optimize (net : Network) (mode : Optimize.Mode) : Observed (Network × Nat) := do
  let (net, n) ← Loop.run (Nat.pow 2 net.extent) (Optimize.turn mode) (net, 0)
  return (net.fitAllThresholds, n)

end GameNet
