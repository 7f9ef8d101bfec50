/-!
Terms of the game description language: atoms, and groups of terms.
-/

namespace GameNet

inductive Term where
  | atom (name : String)
  | group (parts : List Term)
  deriving Repr, Inhabited

namespace Term

mutual

def decEq : (a b : Term) → Decidable (a = b)
  | .atom m, .atom n =>
    if h : m = n then isTrue (h ▸ rfl) else isFalse fun e => h (Term.atom.inj e)
  | .group xs, .group ys =>
    match decEqParts xs ys with
    | isTrue h => isTrue (h ▸ rfl)
    | isFalse h => isFalse fun e => h (Term.group.inj e)
  | .atom _, .group _ => isFalse nofun
  | .group _, .atom _ => isFalse nofun

def decEqParts : (xs ys : List Term) → Decidable (xs = ys)
  | [], [] => isTrue rfl
  | [], _ :: _ => isFalse nofun
  | _ :: _, [] => isFalse nofun
  | x :: xs, y :: ys =>
    match decEq x y, decEqParts xs ys with
    | isTrue h, isTrue t => isTrue (h ▸ t ▸ rfl)
    | isFalse h, _ => isFalse fun e => h (List.cons.inj e).1
    | _, isFalse t => isFalse fun e => t (List.cons.inj e).2

end

instance : DecidableEq Term := decEq

def isVariableName (name : String) : Bool :=
  name.toList.head? == some '?'

def arity : Term → Nat
  | .atom _ => 1
  | .group parts => parts.length

def nth? : Term → Nat → Option Term
  | .atom _, _ => none
  | .group parts, i => parts[i]?

def name? : Term → Option String
  | .atom name => some name
  | .group _ => none

def head? : Term → Option String
  | .atom name => some name
  | .group parts => parts.head?.bind name?

def hasShape (t : Term) (head : String) (parts : Nat) : Bool :=
  t.arity == parts && t.head? == some head

mutual

def isGround : Term → Bool
  | .atom name => !isVariableName name
  | .group parts => isGroundAll parts

def isGroundAll : List Term → Bool
  | [] => true
  | t :: ts => t.isGround && isGroundAll ts

end

mutual

/-- The text of a term: the parts of a group in parentheses, one space between them. -/
def render : Term → String
  | .atom name => name
  | .group parts => "(" ++ renderParts parts ++ ")"

def renderParts : List Term → String
  | [] => ""
  | [t] => t.render
  | t :: ts => t.render ++ " " ++ renderParts ts

end

end Term

end GameNet
