import GameNet.Term.Reader
import Std.Data.HashMap

/-!
A pool of terms in which every term is stored once and named by a handle.
-/

namespace GameNet.Term

abbrev Handle := Nat

inductive Node where
  | const (name : String)
  | var (name : String)
  | group (parts : List Handle)
  deriving DecidableEq, Hashable, Repr

structure Pool where
  nodes : Array Node := #[]
  index : Std.HashMap Node Handle := {}

namespace Pool

def size (p : Pool) : Nat := p.nodes.size

def node? (p : Pool) (h : Handle) : Option Node := p.nodes[h]?

def intern (p : Pool) (n : Node) : Handle × Pool :=
  match p.index[n]? with
  | some h => (h, p)
  -- a new node gets the next handle
  | none => (p.nodes.size, ⟨p.nodes.push n, p.index.insert n p.nodes.size⟩)

def atom (p : Pool) (name : String) : Handle × Pool :=
  p.intern (if isVariableName name then .var name else .const name)

def group (p : Pool) (parts : List Handle) : Handle × Pool :=
  p.intern (.group parts)

def handles : Builder (StateM Pool) Handle where
  atom name := fun p => p.atom name
  group parts := fun p => p.group parts

/-- Reads a term and stores it with all its parts. The parts read before a mistake in the text stay
in the pool. -/
def read (p : Pool) (text : String) : Except ReadError Handle × Pool :=
  (readTokens handles (tokens text)).run p

def arity (p : Pool) (h : Handle) : Nat :=
  match p.node? h with
  | some (.group parts) => parts.length
  | _ => 1

def nth? (p : Pool) (h : Handle) (i : Nat) : Option Handle :=
  match p.node? h with
  | some (.group parts) => parts[i]?
  | _ => none

def name? (p : Pool) (h : Handle) : Option String :=
  match p.node? h with
  | some (.const name) | some (.var name) => some name
  | _ => none

def head? (p : Pool) (h : Handle) : Option String :=
  match p.node? h with
  | some (.group parts) => parts.head?.bind p.name?
  | _ => p.name? h

/-- The tree that a handle stands for. The parts of a stored group are older than the group, so
their handles are smaller; any other reads as the empty group. -/
def expand (p : Pool) (h : Handle) : Term :=
  match p.node? h with
  | some (.const name) | some (.var name) => .atom name
  | some (.group parts) => .group (parts.map fun q => if q < h then expand p q else .group [])
  | none => .group []
termination_by h

def render (p : Pool) (h : Handle) : String := (p.expand h).render

def isGround (p : Pool) (h : Handle) : Bool := (p.expand h).isGround

end Pool

end GameNet.Term
