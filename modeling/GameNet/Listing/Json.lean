import GameNet.Json.Reader
import GameNet.Listing.Basic

/-!
The JSON form of a listing: an object with a format tag, the role names and one array per
component.
-/

namespace GameNet

namespace Listing

def format : String := "propnet-listing-0.01"

end Listing

namespace RawComponent

def idsToJson (ids : List UInt32) : Json := .array (ids.map fun c => .nat c.toNat)

def toJson (c : RawComponent) : Json :=
  .array
    ([.nat c.id.toNat, .int c.count.toInt, .text c.op.label, idsToJson c.inputs, idsToJson c.outputs]
      ++ c.label.elim [] fun (role, term) => [.text role.tag, .text term])

def orBad (x : Option α) (cause : ListingCause) : Except ListingCause α :=
  x.elim (throw cause) pure

def idsOfJson (list : String) (v : Json) : Except ListingCause (List UInt32) :=
  if v.isArray then v.items.mapM fun x => orBad x.uint32? (.badListId list x.display)
  else throw (.notArray list v.display)

def ofJson (row : Json) : Except ListingCause RawComponent := do
  if row.length ≠ 5 ∧ row.length ≠ 7 then throw (.badTuple row.display)
  let id ← orBad (row.item 0).uint32? (.badId (row.item 0).display)
  let count ← orBad (row.item 1).int32? (.badCount (row.item 1).display)
  let op ← orBad ((row.item 2).text?.bind Op.ofName?) (.badKind (row.item 2).display)
  let inputs ← idsOfJson "inputs" (row.item 3)
  let outputs ← idsOfJson "outputs" (row.item 4)
  if row.length = 7 then
    let role ← orBad ((row.item 5).text?.bind PropRole.ofTag?) (.badRoleTag (row.item 5).display)
    let term ← orBad (row.item 6).text? (.badTerm (row.item 6).display)
    if op ≠ .proposition then throw (.needlessTag id.toNat op.name)
    return { id, count, op, inputs, outputs, label := some (role, term) }
  else
    if op = .proposition then throw (.missingTag id.toNat op.name)
    return { id, count, op, inputs, outputs }

end RawComponent

namespace Listing

def toJson (l : Listing) : Json :=
  .object
    [("format", .text format),
     ("roles", .array (l.roles.map .text)),
     ("components", .array (l.components.toList.map RawComponent.toJson))]

def ofJson (data : Json) : Except ListingCause Listing := do
  if (data.field "format").text? ≠ some format then
    throw (.unexpectedFormat (data.field "format").display)
  let roles ← (data.field "roles").items.mapM fun r =>
    RawComponent.orBad r.text? (.badRoleName r.display)
  let components ← (data.field "components").items.mapM RawComponent.ofJson
  return { roles, components := components.toArray }

def parse (text : String) : Checked Listing :=
  match Json.parse text with
  | none => throw (.compile (.listing .notJson))
  | some data => (ofJson data).mapError fun cause => .compile (.listing cause)

end Listing

end GameNet
