import GameNet.Play.Charge

/-!
Two machines in lock step: the same random game is played on both, and they must agree on everything
that a player can see.
-/

namespace GameNet

structure Duel (ρ : Type := Generator) where
  first : Machine
  second : Machine
  rng : ρ
  deriving Inhabited

namespace Duel

variable {ρ : Type} [Dice ρ]

def actFirst (f : Machine → Checked (α × Machine)) : Play (Duel ρ) α := fun d =>
  match f d.first with
  | .ok (a, first) => (.ok a, { d with first })
  | .error e => (.error e, d)

def actSecond (f : Machine → Checked (α × Machine)) : Play (Duel ρ) α := fun d =>
  match f d.second with
  | .ok (a, second) => (.ok a, { d with second })
  | .error e => (.error e, d)

def ask (f : Machine → Checked α) : Play (Duel ρ) (α × α) := fun d =>
  (do return (← f d.first, ← f d.second), d)

def pick (n : Nat) : Play (Duel ρ) Nat := fun d =>
  let (k, rng) := Dice.pick d.rng n
  (.ok k, { d with rng })

def disagree (depth : Nat) (what : Disagreement) : Play (Duel ρ) α :=
  throw (.play (.divergence depth what))

def textLe (a b : String) : Bool := !decide (b < a)

def baseTerms (m : Machine) : List String := m.net.bases.filterMap m.net.termText?

def visibleTerms (shared : List String) (m : Machine) : Checked (List String) := do
  let terms ← m.stateTerms (← m.currentState)
  return sortBy textLe (terms.filter shared.contains)

def sortedMoves (role : Nat) (m : Machine) : Checked (List (String × CompId)) := do
  let moves := (← m.legalMoves role).map fun l => (m.moveText l, l)
  return sortBy (fun a b => decide (a.1 < b.1) || (a.1 == b.1 && decide (a.2 ≤ b.2))) moves

def randomMoves (depth : Nat) : List Nat → Play (Duel ρ) (Option (List CompId × List CompId))
  | [] => return some ([], [])
  | role :: roles => do
    let (a, b) ← ask (sortedMoves role)
    let (ta, tb) := (a.map (·.1), b.map (·.1))
    if ta ≠ tb then disagree depth (.legals role ta tb)
    if a.isEmpty then return none
    let k ← pick a.length
    let rest ← randomMoves depth roles
    return rest.map fun (ja, jb) =>
      ((a[k]?).toList.map (·.2) ++ ja, (b[k]?).toList.map (·.2) ++ jb)

/-- The machines agree on the state, as far as both know the bases, and on whether the game is over;
returns the latter. -/
def compareTurn (shared : List String) (depth : Nat) : Play (Duel ρ) Bool := do
  let (sa, sb) ← ask (visibleTerms shared)
  if sa ≠ sb then disagree depth (.state sa sb)
  let (ta, tb) ← ask (·.isTerminal)
  if ta ≠ tb then disagree depth (.terminal ta tb)
  return ta

def playOut (roles : List Nat) (shared : List String) : (fuel depth : Nat) → Play (Duel ρ) Nat
  | 0, depth => do
    discard <| compareTurn shared depth
    return depth
  | fuel + 1, depth => do
    if ← compareTurn shared depth then return depth
    match ← randomMoves depth roles with
    | none => return depth
    | some (ja, jb) =>
      let na ← actFirst (·.nextState ja)
      let nb ← actSecond (·.nextState jb)
      actFirst fun m => do return ((), ← m.update na)
      actSecond fun m => do return ((), ← m.update nb)
      playOut roles shared fuel (depth + 1)

def compareGoal (depth role : Nat) : Play (Duel ρ) Unit := do
  let a ← actFirst (·.goalValue role)
  let b ← actSecond (·.goalValue role)
  if a ≠ b then disagree depth (.goal role a b)

def compare (maxDepth : Nat) : Play (Duel ρ) Nat := do
  actFirst fun m => do return ((), ← m.reset)
  actSecond fun m => do return ((), ← m.reset)
  let ⟨first, second, _⟩ ← get
  let shared := (baseTerms first).filter (baseTerms second).contains
  if first.roleCount ≠ second.roleCount then
    disagree 0 (.roleCount first.roleCount second.roleCount)
  let roles := List.range first.roleCount
  let depth ← playOut roles shared maxDepth 0
  if (← ask (·.isTerminal)).1 then roles.forM (compareGoal depth)
  return depth

def compareGames (maxDepth : Nat) : (games : Nat) → Play (Duel ρ) Unit
  | 0 => return ()
  | games + 1 => do
    discard <| compare maxDepth
    compareGames maxDepth games

end Duel

/-! ## Validation -/

namespace Validation

/-- What one worker comes to: it makes its own pair of machines and plays its games, with the seed
advanced by its number. -/
def worker (ρ : Type) [Dice ρ] (make : Nat → Checked (Machine × Machine)) (seed : UInt64)
    (games maxDepth w : Nat) : Checked Nat := do
  let (first, second) ← make w
  let duel : Duel ρ := ⟨first, second, Dice.ofSeed (seed + w.toUInt64)⟩
  (Duel.compareGames maxDepth games duel).1
  return games

def isCrash : Checked α → Bool
  | .error (.crash _) => true
  | _ => false

abbrev Report := Nat × Checked Nat

/-- The games of all workers together, or the error of the first worker that fails. The reports may
arrive in any order, so they are put in the order of the workers first. A worker that crashes takes
all others with it. -/
def total (reports : List Report) : Checked Nat :=
  if reports.any fun r => isCrash r.2 then throw (.crash .workerLost)
  else (sortBy (fun a b => decide (a.1 ≤ b.1)) reports).foldlM (fun n r => do return n + (← r.2)) 0

end Validation

def validateEach (ρ : Type) [Dice ρ] (make : Nat → Checked (Machine × Machine)) (seed : UInt64)
    (workers games maxDepth : Nat) : Checked Nat :=
  Validation.total ((List.range workers).map fun w =>
    (w, Validation.worker ρ make seed games maxDepth w))

def validate (make : Checked (Machine × Machine)) (seed : UInt64)
    (workers games maxDepth : Nat) : Checked Nat :=
  validateEach Generator (fun _ => make) seed workers games maxDepth

end GameNet
