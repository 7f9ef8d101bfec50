import GameNet.Text.Decimal
import GameNet.Text.Quoted

/-!
What the compiler is asked to do.
-/

namespace GameNet

inductive OptLevel where
  | raw
  | fast
  | full
  deriving DecidableEq, Repr, Inhabited

inductive VerifyLevel where
  | none
  | invariants
  | full
  deriving DecidableEq, Repr, Inhabited

def OptLevel.name : OptLevel → String
  | .raw => "Raw"
  | .fast => "Fast"
  | .full => "Full"

def VerifyLevel.name : VerifyLevel → String
  | .none => "None"
  | .invariants => "Invariants"
  | .full => "Full"

structure Options where
  /-- the largest fan-in; 0 stands for no limit -/
  maxFanIn : Nat := 256
  verify : VerifyLevel := .invariants
  level : OptLevel := .fast
  splitControls : Bool := true
  stripGoals : Bool := true
  /-- milliseconds for the statistical search for control bases -/
  statsBudget : Nat := 1000
  /-- milliseconds for an unseeded validation -/
  validateBudget : Nat := 1000
  /-- games of each worker of a seeded validation -/
  validateGames : Nat := 100
  seed : Option UInt64 := none
  /-- workers of a validation; 0 stands for one per processor -/
  workers : Nat := 0
  maxDepth : Nat := 1000
  deriving DecidableEq, Repr, Inhabited

namespace Options

def testing : Options :=
  { verify := .full, statsBudget := 200, validateBudget := 200, validateGames := 50,
    seed := some 1234, workers := 2 }

def fast : Options := { verify := .none, splitControls := false }

def workerCount? (o : Options) : Option Nat := if o.workers = 0 then none else some o.workers

def render (o : Options) : String :=
  let seed := Text.optional (o.seed.map toString)
  "Options \x7b " ++
  s!"max_fan_in: {o.maxFanIn}, verify: {o.verify.name}, level: {o.level.name}, " ++
  s!"split_controls: {o.splitControls}, strip_goals: {o.stripGoals}, " ++
  s!"stats_budget: {Text.duration o.statsBudget}, " ++
  s!"validate_budget: {Text.duration o.validateBudget}, " ++
  s!"validate_games: {o.validateGames}, seed: {seed}, workers: {o.workers}, " ++
  s!"max_depth: {o.maxDepth}, .. \x7d"

end Options

end GameNet
