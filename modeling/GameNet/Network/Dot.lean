import GameNet.Network.Basic

/-!
A drawing of a network in the dot language.
-/

namespace GameNet.Network

def dotLabel (k : Component) : String :=
  match k.kind with
  | .and => "∧"
  | .or => "∨"
  | .not => "¬"
  | .transition _ => "T"
  | .constant => toString k.count
  | .proposition p => p.term.render.map fun c => if c = '"' then '\x27' else c

def dotShape : Op → String
  | .proposition => "box"
  | .transition => "diamond"
  | _ => "circle"

def dotEdge (a b : CompId) (style : String) : String :=
  " \"" ++ toString a ++ "\"->\"" ++ toString b ++ "\"" ++ style ++ ";\n"

def dotComponent (c : CompId) (k : Component) : String :=
  let node := " \"" ++ toString c ++ "\"[label=\"" ++ dotLabel k ++ "\",shape=" ++
    dotShape k.op ++ "];\n"
  let edges := k.outputs.map fun o => dotEdge c o ""
  let driven := k.drivenBase?.toList.map fun b => dotEdge c b "[style=dashed]"
  String.join (node :: edges ++ driven)

/-- Each component with the edges that leave it; a dashed edge leads from a transition to the base
that it drives. -/
def dot (net : Network) : String :=
  "digraph propnet \x7b\nrankdir=LR;\n" ++
  String.join (net.components.map fun (c, k) => dotComponent c k) ++ "\x7d\n"

end GameNet.Network
