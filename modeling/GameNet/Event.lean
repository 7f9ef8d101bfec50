import GameNet.Network.Summary

/-!
What an observer hears from the compiler: passes, stages and warnings.
-/

namespace GameNet

inductive Warning where
  | syntheticInit
  | orphanLegal (id : CompId) (term : String)
  | permanentLegal (id : CompId) (term : String)
  | forcedCycle (level size : Nat)
  | splitFallback (reason : String)
  deriving DecidableEq, Repr

def Warning.message : Warning → String
  | .syntheticInit => "no init proposition; synthesized one"
  | .orphanLegal id term => s!"legal {id.render} {term} has no matching input"
  | .permanentLegal id term => s!"legal {id.render} {term} is always true"
  | .forcedCycle level size => s!"forced {size} cyclic components into level {level}"
  | .splitFallback reason => s!"control split abandoned: {reason}"

inductive Event where
  | pass (name : String) (changes : Nat)
  | stage (name : String) (summary : Summary)
  | warning (w : Warning)
  deriving DecidableEq, Repr

def Event.stage? : Event → Option String
  | .stage name _ => some name
  | _ => none

def Event.warning? : Event → Option Warning
  | .warning w => some w
  | _ => none

/-- A computation that tells an observer what it does. What was told before a fault stays told. -/
abbrev Observed := ExceptT Fault (StateM (Array Event))

namespace Observed

def tell (e : Event) : Observed Unit := modify (·.push e)

def warn (w : Warning) : Observed Unit := tell (.warning w)

def stage (name : String) (net : Network) : Observed Unit := tell (.stage name net.summary)

def listen (x : Observed α) : Checked α × Array Event := (ExceptT.run x).run #[]

end Observed

instance : MonadLift Checked Observed where
  monadLift x := ExceptT.mk (pure x)

end GameNet
