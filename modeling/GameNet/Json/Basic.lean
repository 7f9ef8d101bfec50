import GameNet.Json.Number

/-!
JSON values: the type, look-ups that never fail, and the compact text.
-/

namespace GameNet

/-- A JSON value. The fields of an object keep the order in which their keys first occurred. -/
inductive Json where
  | null
  | bool (b : Bool)
  | number (n : Json.Number)
  | text (s : String)
  | array (items : List Json)
  | object (fields : List (String × Json))
  deriving Repr, Inhabited

namespace Json

def nat (n : Nat) : Json := .number (.ofNat n)

def int (i : Int) : Json := .number (.ofInt i)

/-- A missing key, and a key of anything but an object, reads as `null`. -/
def field (key : String) : Json → Json
  | .object fields => (fields.lookup key).getD .null
  | _ => .null

def item (i : Nat) : Json → Json
  | .array items => items[i]?.getD .null
  | _ => .null

def items : Json → List Json
  | .array items => items
  | _ => []

def isArray : Json → Bool
  | .array _ => true
  | _ => false

def length : Json → Nat
  | .array items => items.length
  | .object fields => fields.length
  | _ => 0

def text? : Json → Option String
  | .text s => some s
  | _ => none

def uint32? : Json → Option UInt32
  | .number n => n.toUInt32?
  | _ => none

def int32? : Json → Option Int32
  | .number n => n.toInt32?
  | _ => none

def hexDigit (n : Nat) : Char := Nat.digitChar n

def escape (c : Char) : List Char :=
  if c = '"' then ['\\', '"']
  else if c = '\\' then ['\\', '\\']
  else if c = '\x08' then ['\\', 'b']
  else if c = '\t' then ['\\', 't']
  else if c = '\n' then ['\\', 'n']
  else if c = '\x0c' then ['\\', 'f']
  else if c = '\r' then ['\\', 'r']
  else if c.toNat < 32 then ['\\', 'u', '0', '0', hexDigit (c.toNat / 16), hexDigit (c.toNat % 16)]
  else [c]

def quote (s : String) : String :=
  "\"" ++ String.ofList (s.toList.flatMap escape) ++ "\""

mutual

def render : Json → String
  | .null => "null"
  | .bool b => if b then "true" else "false"
  | .number n => n.render
  | .text s => quote s
  | .array items => "[" ++ renderItems items ++ "]"
  | .object fields => "\x7b" ++ renderFields fields ++ "\x7d"

def renderItems : List Json → String
  | [] => ""
  | [v] => v.render
  | v :: vs => v.render ++ "," ++ renderItems vs

def renderFields : List (String × Json) → String
  | [] => ""
  | [(key, v)] => quote key ++ ":" ++ v.render
  | (key, v) :: rest => quote key ++ ":" ++ v.render ++ "," ++ renderFields rest

end

def display : Json → String
  | .text s => s
  | v => v.render

end Json

end GameNet
