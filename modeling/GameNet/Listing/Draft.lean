import GameNet.Listing.Basic

/-!
Drawing up a listing step by step. A draft hands out ids in order and lists every edge at both of its
ends.
-/

namespace GameNet

abbrev Draft := StateT Listing Checked

namespace Draft

def change (id : UInt32) (f : RawComponent → RawComponent) : Draft Unit := do
  let l ← get
  if id.toNat < l.components.size then
    set { l with components := l.components.modify id.toNat f }
  else throw (.crash .indexOutOfRange)

def push (op : Op) (count : Int32) (label : Option (PropRole × String)) (inputs : List UInt32) :
    Draft UInt32 := do
  let id := (← get).components.size.toUInt32
  for i in inputs do
    change i fun c => { c with outputs := c.outputs ++ [id] }
  modify fun l => { l with components := l.components.push { id, count, op, inputs, label } }
  return id

def link (a b : UInt32) : Draft Unit := do
  change a fun c => { c with outputs := c.outputs ++ [b] }
  change b fun c => { c with inputs := c.inputs ++ [a] }

def proposition (role : PropRole) (term : String) (inputs : List UInt32) : Draft UInt32 :=
  push .proposition 0 (some (role, term)) inputs

def and (inputs : List UInt32) : Draft UInt32 := push .and 0 none inputs

def or (inputs : List UInt32) : Draft UInt32 := push .or 0 none inputs

def not (input : UInt32) : Draft UInt32 := push .not 0 none [input]

def constant (value : Bool) : Draft UInt32 := push .constant (if value then 1 else 0) none []

def base (fact : String) : Draft UInt32 := do
  let t ← push .transition 0 none []
  proposition .base s!"(true {fact})" [t]

def next (base source : UInt32) : Draft Unit := do
  match (← get).components[base.toNat]?.bind (·.inputs.head?) with
  | some t => link source t
  | none => throw (.crash .indexOutOfRange)

def input (role move : String) : Draft UInt32 := proposition .input s!"(does {role} {move})" []

def legal (role move : String) (source : UInt32) : Draft UInt32 :=
  proposition .legal s!"(legal {role} {move})" [source]

def goal (role : String) (value : Nat) (source : UInt32) : Draft UInt32 :=
  proposition .goal s!"(goal {role} {value})" [source]

def listing (roles : List String) (steps : Draft α) : Checked Listing := do
  return (← steps.run { roles }).2

end Draft

end GameNet
