import GameNet.Network.Basic

/-!
New numbers for the components of a network.
-/

namespace GameNet

def Component.renumber (new : CompId → Checked CompId) (k : Component) : Checked Component := do
  let inputs ← k.inputs.mapM new
  let outputs ← k.outputs.mapM new
  let kind ← match k.kind with
    | .transition (some b) => do pure (.transition (some (← new b)))
    | .proposition p => do
      let pairedInput ← p.pairedInput.mapM new
      let pairedLegal ← p.pairedLegal.mapM new
      pure (.proposition { p with pairedInput, pairedLegal })
    | kind => pure kind
  return { k with inputs, outputs, kind }

def Player.renumber (new : CompId → Checked CompId) (p : Player) : Checked Player := do
  let inputs ← p.inputs.mapM new
  let legals ← p.legals.mapM new
  let goals ← p.goals.mapM new
  return { p with inputs, legals, goals }

namespace Network

/-- The new number of each old one: `order[i]` becomes `i`. The order must name live components
only, and each once. -/
def newNumbers (net : Network) (order : List CompId) : Checked (Array (Option CompId)) :=
  order.zipIdx.foldlM (fun table (c, i) =>
    if !net.contains c || ((table[c]?).join).isSome then throw (net.invariant c .badOrder)
    else pure (table.set! c (some i))) (Array.replicate net.capacity none)

def newNumber (table : Array (Option CompId)) (c : CompId) : Checked CompId :=
  match table[c]? with
  | some (some i) => pure i
  | some none => throw (.crash (.danglingReference c))
  | none => throw (.crash .indexOutOfRange)

/-- Gives every component a new number: the one named by `order[i]` becomes component `i`, and so
does every reference to it. The order must name every live component exactly once. -/
def renumber (net : Network) (order : List CompId) : Checked Network := do
  let table ← net.newNumbers order
  if order.length ≠ net.size then
    let missing := net.ids.find? fun c => ((table[c]?).join).isNone
    throw (net.invariant (missing.getD 0) .orderMisses)
  -- every reference must name a component of the order
  let new := newNumber table
  let slots ← order.mapM fun c => do return some (← (← net.get c).renumber new)
  let bases ← net.bases.mapM new
  let inputs ← net.inputs.mapM new
  let transitions ← net.transitions.mapM new
  let players ← net.players.mapM (·.renumber new)
  let levels ← net.levels.mapM (·.mapM new)
  let terminal ← new net.terminal
  let init ← net.init.mapM new
  let fixedBase ← net.fixedBase.mapM new
  return { net with
    slots := slots.toArray, bases, inputs, transitions, players, levels, terminal, init, fixedBase }

end Network

end GameNet
