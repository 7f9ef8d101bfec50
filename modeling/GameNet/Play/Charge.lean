import GameNet.Machine.Basic
import GameNet.Random
import GameNet.Text.Decimal

/-!
Random games: from the initial state, each player picks among the legal moves until the game is over,
somebody has no move, or the depth is reached.
-/

namespace GameNet

/-- A step of play may fail; what it has done before stays done. -/
abbrev Play (σ : Type) := ExceptT Fault (StateM σ)

instance {σ : Type} : MonadLift Checked (Play σ) where
  monadLift x := ExceptT.mk (pure x)

structure Game (ρ : Type := Generator) where
  machine : Machine
  rng : ρ
  deriving Inhabited

structure Outcome where
  depth : Nat
  /-- false if the game stopped before a terminal state -/
  terminal : Bool
  goals : List (Option Nat)
  deriving DecidableEq, Repr

structure ChargeReport where
  rollouts : Nat := 0
  totalDepth : Nat := 0
  scores : List Nat := []
  /-- milliseconds -/
  elapsed : Nat := 0
  deriving DecidableEq, Repr

namespace ChargeReport

def add (r : ChargeReport) (o : Outcome) : ChargeReport where
  rollouts := r.rollouts + 1
  totalDepth := r.totalDepth + o.depth
  scores := r.scores.zipWith (fun s g => s + g.getD 0) o.goals
  elapsed := r.elapsed

def averageDepth (r : ChargeReport) : Float :=
  if r.rollouts = 0 then 0 else r.totalDepth.toFloat / r.rollouts.toFloat

def perSecond (r : ChargeReport) : Float :=
  let seconds := (r.elapsed / 1000).toFloat + (r.elapsed % 1000 * 1000000).toFloat / 1000000000
  if r.elapsed = 0 then 0 else r.rollouts.toFloat / seconds

end ChargeReport

namespace Game

variable {ρ : Type} [Dice ρ]

def act (f : Machine → Checked (α × Machine)) : Play (Game ρ) α := fun g =>
  match f g.machine with
  | .ok (a, machine) => (.ok a, { g with machine })
  | .error e => (.error e, g)

def ask (f : Machine → Checked α) : Play (Game ρ) α := fun g => (f g.machine, g)

def pick (n : Nat) : Play (Game ρ) Nat := fun g =>
  let (k, rng) := Dice.pick g.rng n
  (.ok k, { g with rng })

def update (s : BaseState) : Play (Game ρ) Unit := act fun m => do return ((), ← m.update s)

def reset : Play (Game ρ) Unit := act fun m => do return ((), ← m.reset)

def randomMoves : List Nat → Play (Game ρ) (Option (List CompId))
  | [] => return some []
  | role :: roles => do
    let legals ← ask (·.legalMoves role)
    -- a role without a move ends the game, and the roles after it draw no number
    if legals.isEmpty then return none
    let k ← pick legals.length
    let rest ← randomMoves roles
    return rest.map ((legals[k]?).toList ++ ·)

def playOut (roles : List Nat) : (fuel depth : Nat) → Play (Game ρ) Nat
  | 0, depth => return depth
  | fuel + 1, depth => do
    if ← ask (·.isTerminal) then return depth
    match ← randomMoves roles with
    | none => return depth
    | some joint =>
      let next ← act (·.nextState joint)
      update next
      playOut roles fuel (depth + 1)

def charge (maxDepth : Nat) : Play (Game ρ) Outcome := do
  reset
  let roles := List.range (← get).machine.roleCount
  let depth ← playOut roles maxDepth 0
  let terminal ← ask (·.isTerminal)
  let goals ← roles.mapM fun role => act (·.goalValue role)
  return { depth, terminal, goals }

def charges (maxDepth : Nat) : (games : Nat) → ChargeReport → Play (Game ρ) ChargeReport
  | 0, r => return r
  | games + 1, r => do
    let o ← charge maxDepth
    charges maxDepth games (r.add o)

def chargeReport (games maxDepth : Nat) : Play (Game ρ) ChargeReport := do
  let roles := (← get).machine.roleCount
  charges maxDepth games { scores := List.replicate roles 0 }

end Game

end GameNet
