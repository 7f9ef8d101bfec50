import GameNet.Network.Renumber

/-!
The canonical order of bases, legals and components.
-/

namespace GameNet

/-- An atom is grouped by its own name, a group of terms by its head. -/
def Term.sortGroup : Term → String
  | .atom name => name
  | .group parts => (parts.head?.map Term.render).getD ""

namespace Network

/-- The group of one part of a component's term, then the whole term. -/
abbrev TermKey := String × String

def TermKey.le (a b : TermKey) : Bool :=
  decide (a.1 < b.1) || (a.1 == b.1 && !decide (b.2 < a.2))

def termKey (net : Network) (part : Nat) (c : CompId) : Checked TermKey := do
  let term := (← net.get c).term?
  return (((term.bind (·.nth? part)).map Term.sortGroup).getD "", (term.map Term.render).getD "")

def sortByTerm (net : Network) (part : Nat) (cs : List CompId) : Checked (List CompId) :=
  match cs with
  | [] | [_] => pure cs
  | cs => do
    -- a stable ascending sort, then turned around
    let keyed ← cs.mapM fun c => do return (← net.termKey part c, c)
    return ((sortBy (fun a b => TermKey.le a.1 b.1) keyed).map (·.2)).reverse

def reorderBases (net : Network) : Checked Network := do
  let bases ← net.sortByTerm 1 net.bases
  let order ← bases.mapM fun b =>
    match net.bases.findIdx? (· == b) with
    | some i => pure i
    | none => throw (.crash (.lostBase b))
  let transitions ← order.mapM fun i =>
    match net.transitions[i]? with
    | some t => pure t
    | none => throw (.crash .indexOutOfRange)
  let initialState := order.map fun i => net.initialState[i]?.getD false
  return { net with bases, transitions, initialState }

def pairedInputOf (net : Network) (l : CompId) : Checked CompId := do
  match (← net.get l).proposition?.bind (·.pairedInput) with
  | some i => return i
  | none => throw (.crash (.unpairedLegal l))

/-- Puts each player's legals in the order of their moves. Inputs follow their legals; those without
a legal come last. -/
def reorderLegals (net : Network) : Checked Network := do
  let players ← net.players.mapM fun p => do
    let legals ← net.sortByTerm 2 p.legals
    let inputs ← legals.mapM net.pairedInputOf
    return { p with legals, inputs }
  let placed := players.flatMap (·.inputs)
  return { net with players, inputs := placed ++ net.inputs.filter fun i => !placed.contains i }

def firstPlaces (ids : List CompId) : List CompId :=
  (ids.foldl (fun (seen : List CompId) c => if seen.contains c then seen else c :: seen) []).reverse

/-- Bases, the players' inputs, other inputs, gates level by level, the terminal, goals,
transitions, legals, and whatever is left. -/
def canonicalOrder (net : Network) : Checked (List CompId) := do
  let gates ← net.levels.flatten.filterM fun c => do return (← net.get c).isGate
  return firstPlaces (net.bases ++ net.players.flatMap (·.inputs) ++ net.inputs ++ gates ++
    [net.terminal] ++ net.goals ++ net.transitions ++ net.legals ++ net.ids)

def reorderComponents (net : Network) : Checked Network := do
  net.renumber (← net.canonicalOrder)

end Network

end GameNet
