import GameNet.Listing.Draft

/-!
Small games, for trying things out.
-/

namespace GameNet.Listing

open Draft

/-- Two players and three bases. White picks a or b, black can only wait, and the game is over after
one move. -/
def oneMove : Checked Listing := listing ["white", "black"] do
  let init ← proposition .init "init" []
  let o1 ← base "o1"
  let o2 ← base "o2"
  let o3 ← base "o3"
  next o1 init
  discard <| legal "white" "a" o1
  discard <| legal "white" "b" o1
  discard <| legal "black" "noop" o1
  let a ← input "white" "a"
  let b ← input "white" "b"
  discard <| input "black" "noop"
  next o2 a
  next o3 b
  let ended ← or [o2, o3]
  discard <| proposition .terminal "terminal" [ended]
  discard <| goal "white" 10 o2
  discard <| goal "white" 90 o3
  discard <| goal "black" 90 o2
  discard <| goal "black" 10 o3

def boardCells : List (Nat × Nat) :=
  [(1, 1), (1, 2), (1, 3), (2, 1), (2, 2), (2, 3), (3, 1), (3, 2), (3, 3)]

def boardLines : List (List Nat) :=
  [[0, 1, 2], [3, 4, 5], [6, 7, 8], [0, 3, 6], [1, 4, 7], [2, 5, 8], [0, 4, 8], [2, 4, 6]]

def boardMoves (role : String) (cells : List ((Nat × Nat) × UInt32)) (own other : UInt32) :
    Draft (List UInt32) := do
  let marks ← cells.mapM fun ((i, j), blank) => do
    let move := s!"(mark {i} {j})"
    let mark ← input role move
    let free ← and [blank, own]
    discard <| legal role move free
    return mark
  discard <| input role "noop"
  discard <| legal role "noop" other
  return marks

def keepMark (cell blank mark : UInt32) : Draft Unit := do
  let placed ← and [mark, blank]
  let keep ← or [placed, cell]
  next cell keep

def boardCell (i j : Nat) : Draft (UInt32 × UInt32 × UInt32) := do
  let x ← base s!"(cell {i} {j} x)"
  let o ← base s!"(cell {i} {j} o)"
  let b ← base s!"(cell {i} {j} b)"
  return (x, o, b)

def boardLine (mark : String) (cells : List UInt32) : Draft UInt32 := do
  let lines ← boardLines.mapM fun line => and (line.filterMap fun k => cells[k]?)
  let any ← or lines
  proposition .other s!"(line {mark})" [any]

/-- Tic-tac-toe. The first player moves first, and the player not on turn waits. -/
def ticTacToe : Checked Listing := listing ["xplayer", "oplayer"] do
  let init ← proposition .init "init" []
  let cells ← boardCells.mapM fun (i, j) => boardCell i j
  let blanks := cells.map (·.2.2)
  let turnX ← base "(control xplayer)"
  let turnO ← base "(control oplayer)"
  let marksX ← boardMoves "xplayer" (boardCells.zip blanks) turnX turnO
  let marksO ← boardMoves "oplayer" (boardCells.zip blanks) turnO turnX
  for ((x, o, blank), markX, markO) in cells.zip (marksX.zip marksO) do
    keepMark x blank markX
    keepMark o blank markO
    let marked ← or [markX, markO]
    let unmarked ← not marked
    let still ← and [blank, unmarked]
    let clear ← or [init, still]
    next blank clear
  let first ← or [init, turnO]
  next turnX first
  next turnO turnX
  let lineX ← boardLine "x" (cells.map (·.1))
  let lineO ← boardLine "o" (cells.map (·.2.1))
  let anyBlank ← or blanks
  let opened ← proposition .other "open" [anyBlank]
  let noX ← not lineX
  let noO ← not lineO
  let draw ← and [noX, noO]
  for (role, own, other) in [("xplayer", lineX, lineO), ("oplayer", lineO, lineX)] do
    discard <| goal role 100 own
    discard <| goal role 50 draw
    discard <| goal role 0 other
  let full ← not opened
  let ended ← or [lineX, lineO, full]
  discard <| proposition .terminal "terminal" [ended]

def guardedEnd : Checked Listing := listing ["solo"] do
  let init ← proposition .init "init" []
  let a ← base "a"
  let b ← base "b"
  let stay ← or [init, a]
  next a stay
  discard <| legal "solo" "go" a
  let go ← input "solo" "go"
  next b go
  let k ← constant true
  let both ← and [k, a, b]
  let ended ← proposition .terminal "terminal" [both]
  discard <| goal "solo" 100 ended

def doubleTurn : Checked Listing := listing ["left", "right"] do
  let init ← proposition .init "init" []
  let left ← base "(turn left)"
  let right ← base "(turn right)"
  let done ← base "done"
  let stayLeft ← or [init, right]
  next left stayLeft
  let stayRight ← or [init, left]
  next right stayRight
  discard <| legal "left" "go" left
  let goLeft ← input "left" "go"
  discard <| legal "right" "go" right
  let goRight ← input "right" "go"
  let any ← or [goLeft, goRight]
  next done any
  discard <| proposition .terminal "terminal" [done]
  discard <| goal "left" 50 done
  discard <| goal "right" 50 done

def constantMove : Checked Listing := listing ["solo"] do
  let init ← proposition .init "init" []
  let a ← base "a"
  let waited ← base "waited"
  let stay ← or [init, a]
  next a stay
  let k ← constant true
  discard <| legal "solo" "wait" k
  let wait ← input "solo" "wait"
  next waited wait
  let both ← and [a, waited]
  let ended ← proposition .terminal "terminal" [both]
  discard <| goal "solo" 100 ended

end GameNet.Listing
