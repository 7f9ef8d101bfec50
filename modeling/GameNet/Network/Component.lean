import GameNet.Error
import GameNet.Term.Basic

/-!
Components: the nodes of a network.

A component is a threshold gate. Its count is the number of its inputs that are true, or the value
itself, as 0 or 1, for a component without inputs. It reads as true when the count reaches
`reqTrue`, and the other way round for a NOT.
-/

namespace GameNet

inductive PropRole where
  | base | input | legal | goal | init | terminal | other
  deriving DecidableEq, Repr, Inhabited

namespace PropRole

def tag : PropRole → String
  | .base => "base"
  | .input => "input"
  | .legal => "legal"
  | .goal => "goal"
  | .init => "init"
  | .terminal => "terminal"
  | .other => "other"

def ofTag? : String → Option PropRole
  | "base" => some .base
  | "input" => some .input
  | "legal" => some .legal
  | "goal" => some .goal
  | "init" => some .init
  | "terminal" => some .terminal
  | "other" => some .other
  | _ => none

end PropRole

inductive Op where
  | and | or | not | proposition | transition | constant
  deriving DecidableEq, Repr, Inhabited

namespace Op

def name : Op → String
  | .and => "And"
  | .or => "Or"
  | .not => "Not"
  | .proposition => "Proposition"
  | .transition => "Transition"
  | .constant => "Constant"

def label (op : Op) : String := op.name.toUpper

/-- Names are read without regard to the case of ASCII letters. -/
def ofName? (name : String) : Option Op :=
  match name.toUpper with
  | "AND" => some .and
  | "OR" => some .or
  | "NOT" => some .not
  | "PROPOSITION" => some .proposition
  | "TRANSITION" => some .transition
  | "CONSTANT" => some .constant
  | _ => none

def isGate : Op → Bool
  | .and | .or | .not => true
  | _ => false

end Op

structure Proposition where
  role : PropRole
  term : Term
  player : Option Nat := none
  move : Option Term := none
  goal : Option Nat := none
  pairedInput : Option CompId := none
  pairedLegal : Option CompId := none
  deriving DecidableEq, Repr, Inhabited

inductive Kind where
  | and
  | or
  | not
  | proposition (p : Proposition)
  /-- a transition remembers the base that it drives -/
  | transition (base : Option CompId)
  | constant
  deriving DecidableEq, Repr, Inhabited

namespace Kind

def op : Kind → Op
  | .and => .and
  | .or => .or
  | .not => .not
  | .proposition _ => .proposition
  | .transition _ => .transition
  | .constant => .constant

def ofOp? : Op → Option Kind
  | .and => some .and
  | .or => some .or
  | .not => some .not
  | .transition => some (.transition none)
  | .constant => some .constant
  | .proposition => none

end Kind

def unset : Int := -1

structure Component where
  kind : Kind
  inputs : List CompId := []
  outputs : List CompId := []
  count : Int := 0
  reqTrue : Int := 1
  reqFalse : Int := 0
  /-- 1, or -1 for a NOT, whose value falls when its count rises -/
  sign : Int := 1
  level : Nat := 0
  deriving DecidableEq, Repr, Inhabited

namespace Component

def new (kind : Kind) (count : Int) : Component :=
  { kind, count, sign := if kind.op = .not then -1 else 1 }

def op (c : Component) : Op := c.kind.op

def isGate (c : Component) : Bool := c.op.isGate

def proposition? (c : Component) : Option Proposition :=
  match c.kind with
  | .proposition p => some p
  | _ => none

def mapProposition (f : Proposition → Proposition) (c : Component) : Component :=
  match c.kind with
  | .proposition p => { c with kind := .proposition (f p) }
  | _ => c

def role? (c : Component) : Option PropRole := c.proposition?.map (·.role)

def hasRole (c : Component) (r : PropRole) : Bool := c.role? == some r

def term? (c : Component) : Option Term := c.proposition?.map (·.term)

def drivenBase? (c : Component) : Option CompId :=
  match c.kind with
  | .transition base => base
  | _ => none

def value (c : Component) : Bool := decide (c.reqTrue ≤ c.count) != decide (c.sign < 0)

/-- A count or threshold is a signed 32-bit word and wraps around like one. Where the number of inputs
itself has no room in such a word, the component counts without a limit. -/
def wrap (c : Component) (n : Int) : Int :=
  if Int32.minValue.toInt ≤ n ∧ n ≤ Int32.maxValue.toInt then n
  else if c.inputs.length < 2147483648 then n.bmod Int32.size
  else n

theorem wrap_of_fits {c : Component} {n : Int} (lo : Int32.minValue.toInt ≤ n)
    (hi : n ≤ Int32.maxValue.toInt) : c.wrap n = n := by
  rw [wrap, if_pos ⟨lo, hi⟩]

theorem wrap_of_long {c : Component} (n : Int) (h : ¬ c.inputs.length < 2147483648) : c.wrap n = n := by
  rw [wrap, if_neg h, ite_self]

theorem wrap_of_short {c : Component} (n : Int) (h : c.inputs.length < 2147483648) :
    c.wrap n = n.bmod Int32.size := by
  rw [wrap, if_pos h]
  split
  · next hr =>
    have lo : (-2147483648 : Int) ≤ n := hr.1
    have hi : n ≤ (2147483647 : Int) := hr.2
    rw [Int.bmod_eq_of_le] <;> simp only [Int32.size] <;> omega
  · rfl

theorem wrap_of_le_length {c : Component} {n : Int} (lo : Int32.minValue.toInt ≤ n)
    (hi : n ≤ c.inputs.length) : c.wrap n = n := by
  by_cases h : c.inputs.length < 2147483648
  · apply wrap_of_fits lo
    change n ≤ (2147483647 : Int)
    omega
  · exact wrap_of_long n h

/-- The thresholds of an AND follow its fan-in; those of all others are fixed. -/
def fitThresholds (c : Component) : Component :=
  match c.kind with
  | .and => { c with reqTrue := c.inputs.length, reqFalse := c.inputs.length - 1 }
  | _ => c

end Component

end GameNet
