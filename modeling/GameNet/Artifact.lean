import GameNet.Compile

/-!
Compiled games: the networks that a game is played with, and a store of games by name.
-/

namespace GameNet

inductive Build where
  | standard (net : Network)
  | goalless (play goals : Network)
  | combined (controls : List Network) (goals : Option Network)
  deriving Inhabited

namespace Build

def name : Build → String
  | .standard _ => "standard"
  | .goalless _ _ => "goalless"
  | .combined _ _ => "combined"

def networks : Build → List Network
  | .standard net => [net]
  | .goalless play goals => [play, goals]
  | .combined controls goals => goals.toList ++ controls

def machine (b : Build) (strategy : Strategy) : Checked Machine :=
  match b with
  | .standard net => .single <$> SingleMachine.new net strategy
  | .goalless play goals => .goalless <$> GoallessMachine.new play goals strategy
  | .combined controls goals => .combined <$> CombinedMachine.new controls goals strategy

end Build

namespace Network

def buildCombined (net : Network) (opts : Options) : Observed Build := do
  let cb ← net.discoverControls opts
  let nets ← net.split cb opts
  let goals ← if cb.stripGoals then some <$> net.goalsOnly opts else pure none
  discard <| net.validateSplit nets goals opts
  return .combined nets goals

def trySplit (net : Network) (opts : Options) : Observed (Option Build) := do
  if opts.splitControls && net.roles.length == 2 && opts.level ≠ .raw then
    try
      some <$> net.buildCombined opts
    catch
      | .compile .noControl => return none
      | .compile e =>
        Observed.warn (.splitFallback e.message)
        return none
      | f => throw f
  else return none

/-- A validated split if there is one; else, for two players, the goals apart; else the network as
it is. -/
def chooseBuild (net : Network) (opts : Options) : Observed Build := do
  match ← net.trySplit opts with
  | some b => return b
  | none =>
    if net.roles.length = 2 then
      let play ← net.goalless opts
      let goals ← net.goalsOnly opts
      return .goalless play goals
    else return .standard net

end Network

structure Artifact where
  name : String
  net : Network
  build : Build
  deriving Inhabited

namespace Artifact

def ofListing (name : String) (l : Listing) (opts : Options) : Observed Artifact := do
  let net ← l.compile opts
  return ⟨name, net, ← net.chooseBuild opts⟩

def machine (a : Artifact) (strategy : Strategy) : Checked Machine := a.build.machine strategy

def descriptions (a : Artifact) (opts : Options) : Checked (List Description) :=
  a.build.networks.mapM fun net => do return (← net.describe opts.verify opts.maxFanIn).1

end Artifact

/-- Compiled games by name. A failure is kept too, so each game is compiled once. -/
structure Cache where
  opts : Options
  entries : List (String × Except CompileError Artifact) := []

namespace Cache

def get? (c : Cache) (name : String) : Option (Except CompileError Artifact) :=
  c.entries.lookup name

def size (c : Cache) : Nat := c.entries.length

def getOrCompile (c : Cache) (name : String) (l : Listing) :
    Observed (Except CompileError Artifact × Cache) := do
  match c.get? name with
  | some entry => return (entry, c)
  | none =>
    let entry ← try
        let a ← Artifact.ofListing name l c.opts
        pure (.ok a)
      catch
        | .compile e => pure (.error e)
        | f => throw f
    return (entry, { c with entries := (name, entry) :: c.entries })

end Cache

end GameNet
