import GameNet.Term.Basic
import GameNet.Text.Blank

/-!
Reading terms from text.

The reader does not say what a term is made of: a `Builder` does, so the same fold yields trees and
handles of a term pool.
-/

namespace GameNet.Term

inductive Token where
  | opening
  | closing
  | word (name : String)
  deriving DecidableEq, Repr

def Token.flush (pending : List Char) (rest : List Token) : List Token :=
  if pending.isEmpty then rest else .word (String.ofList pending.reverse) :: rest

def Token.scan : List Char → List Char → List Token
  | pending, [] => flush pending []
  | pending, c :: cs =>
    if c = '(' then flush pending (.opening :: scan [] cs)
    else if c = ')' then flush pending (.closing :: scan [] cs)
    else if Text.isBlank c then flush pending (scan [] cs)
    else scan (c :: pending) cs

/-- Parentheses are tokens of their own; all else between blanks and parentheses is a word. -/
def tokens (text : String) : List Token :=
  Token.scan [] text.toList

inductive ReadError where
  /-- the text is empty, a group is empty or left open, or it begins with a closing parenthesis -/
  | malformed
  | trailing
  deriving DecidableEq, Repr

structure Builder (m : Type → Type) (α : Type) where
  atom : String → m α
  group : List α → m α

inductive Reading (α : Type) where
  /-- the groups still open, innermost first, each with its parts so far in reverse -/
  | within (groups : List (List α))
  | complete (value : α)

namespace Reading

variable {α : Type} {m : Type → Type} [Monad m]

def place (value : α) : List (List α) → Reading α
  | [] => .complete value
  | parts :: groups => .within ((value :: parts) :: groups)

def step (b : Builder m α) : Reading α → Token → ExceptT ReadError m (Reading α)
  | .complete _, _ => throw .trailing
  | .within groups, .opening => pure (.within ([] :: groups))
  | .within groups, .word name => do return place (← b.atom name) groups
  | .within ([] :: _), .closing => throw .malformed
  | .within [], .closing => throw .malformed
  | .within (parts :: groups), .closing => do return place (← b.group parts.reverse) groups

def finish : Reading α → ExceptT ReadError m α
  | .complete value => pure value
  | .within _ => throw .malformed

end Reading

def readTokens {α : Type} {m : Type → Type} [Monad m] (b : Builder m α) (ts : List Token) :
    ExceptT ReadError m α := do
  (← ts.foldlM (Reading.step b) (.within [])).finish

def trees : Builder Id Term where
  atom := .atom
  group := .group

def parse (text : String) : Except ReadError Term :=
  (readTokens trees (tokens text)).run

end GameNet.Term
