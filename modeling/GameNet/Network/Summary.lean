import GameNet.Network.Basic

/-!
How many components of each sort, and how many edges, a network has.
-/

namespace GameNet

structure Summary where
  ands : Nat := 0
  ors : Nat := 0
  nots : Nat := 0
  propositions : Nat := 0
  transitions : Nat := 0
  constants : Nat := 0
  edges : Nat := 0
  deriving DecidableEq, Repr, Inhabited

namespace Summary

def total (s : Summary) : Nat :=
  (s.ands + s.ors + s.nots + s.propositions + s.transitions + s.constants) % UInt64.size

def render (s : Summary) : String :=
  s!"comps:{s.total} and:{s.ands} or:{s.ors} not:{s.nots} prop:{s.propositions} " ++
  s!"trans:{s.transitions} const:{s.constants} edges:{s.edges}"

def addOp (s : Summary) : Op → Summary
  | .and => { s with ands := s.ands + 1 }
  | .or => { s with ors := s.ors + 1 }
  | .not => { s with nots := s.nots + 1 }
  | .proposition => { s with propositions := s.propositions + 1 }
  | .transition => { s with transitions := s.transitions + 1 }
  | .constant => { s with constants := s.constants + 1 }

end Summary

def Network.summary (net : Network) : Summary :=
  net.components.foldl (fun s (_, k) =>
    let s := s.addOp k.op
    { s with edges := s.edges + k.outputs.length }) {}

end GameNet
