import GameNet.Network.Component

/-!
Component listings: the flat form in which a game enters the compiler.
-/

namespace GameNet

/-- One row of a listing. A role and a term stand with propositions. -/
structure RawComponent where
  id : UInt32
  count : Int32
  op : Op
  inputs : List UInt32 := []
  outputs : List UInt32 := []
  label : Option (PropRole × String) := none
  deriving DecidableEq, Repr, Inhabited

structure Listing where
  roles : List String := []
  components : Array RawComponent := #[]
  deriving DecidableEq, Repr, Inhabited

namespace Listing

def size (l : Listing) : Nat := l.components.size

def isEmpty (l : Listing) : Bool := l.components.isEmpty

end Listing

end GameNet
