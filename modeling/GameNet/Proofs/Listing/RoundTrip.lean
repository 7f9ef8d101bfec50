import GameNet.Proofs.Json.RoundTrip
import GameNet.Proofs.Outcome
import GameNet.Listing.Json

/-!
Listings survive their JSON form.

Every part of a row is read back from what is written for it, so every row is, and so is the whole
listing.
-/

namespace GameNet

open List

/-! ## The parts of a row -/

theorem Json.uint32?_nat (c : UInt32) : (Json.nat c.toNat).uint32? = some c := by
  have hsmall : c.toNat < UInt32.size := c.toNat_lt_size
  have hmantissa : c.toNat.toUInt64.toNat = c.toNat := by
    rw [Nat.toUInt64_eq, UInt64.toNat_ofNat']
    exact Nat.mod_eq_of_lt (by rw [UInt32.size] at hsmall; omega)
  have hback : c.toNat.toUInt64.toUInt32 = c := by
    apply UInt32.toNat_inj.1
    rw [UInt64.toNat_toUInt32, hmantissa]
    exact Nat.mod_eq_of_lt hsmall
  simp only [Json.nat, Json.uint32?, Json.Number.ofNat, Json.Number.toUInt32?, hmantissa, hsmall,
    hback, Bool.not_false, and_self, if_true]

theorem Json.signedValue_ofInt {i : Int} (hi : i.natAbs < 9223372036854775808) :
    (Json.Number.ofInt i).signedValue = i := by
  have hword : i.natAbs.toUInt64.toInt64.toInt = i.natAbs := by
    rw [Nat.toUInt64_eq, UInt64.toInt64_ofNat', Int64.toInt_ofNat_of_lt hi]
  simp only [Json.Number.signedValue, Json.Number.ofInt, hword, decide_eq_true_eq]
  split <;> omega

theorem Json.int32?_int (c : Int32) : (Json.int c.toInt).int32? = some c := by
  have hlow := c.minValue_le_toInt
  have hhigh := c.toInt_le
  have hvalue : (Json.Number.ofInt c.toInt).signedValue = c.toInt := by
    apply Json.signedValue_ofInt
    rw [show Int32.minValue.toInt = -2147483648 from rfl] at hlow
    rw [show Int32.maxValue.toInt = 2147483647 from rfl] at hhigh
    omega
  rw [Json.int, Json.int32?, Json.Number.toInt32?, hvalue, if_pos ⟨rfl, hlow, hhigh⟩, Int32.ofInt_toInt]

theorem Op.ofName?_label (op : Op) : Op.ofName? op.label = some op := by
  cases op <;> decide +kernel

theorem PropRole.ofTag?_tag (role : PropRole) : PropRole.ofTag? role.tag = some role := by
  cases role <;> rfl

theorem mapM_map_eq_ok {α β ε : Type} {write : α → β} {read : β → Except ε α} (as : List α)
    (h : ∀ a ∈ as, read (write a) = .ok a) : (as.map write).mapM read = .ok as := by
  induction as with
  | nil => rfl
  | cons a as ih =>
    rw [map_cons, mapM_cons, h a mem_cons_self, ih (forall_mem_cons.mp h).2]
    rfl

theorem forall_mem_of_mapM_eq_ok {α β ε : Type} {read : β → Except ε α} {P : α → Prop}
    (hread : ∀ b a, read b = .ok a → P a) {bs : List β} {as : List α}
    (h : bs.mapM read = .ok as) : ∀ a ∈ as, P a := by
  induction bs generalizing as with
  | nil =>
    cases h
    simp
  | cons b bs ih =>
    rw [mapM_cons] at h
    obtain ⟨a, ha, h⟩ := exists_of_bind_eq_ok h
    obtain ⟨as', has, h⟩ := exists_of_bind_eq_ok h
    cases h
    exact forall_mem_cons.2 ⟨hread b a ha, ih has⟩

namespace RawComponent

theorem idsOfJson_idsToJson (list : String) (ids : List UInt32) :
    idsOfJson list (idsToJson ids) = .ok ids := by
  rw [idsOfJson, idsToJson, Json.isArray, if_pos rfl, Json.items]
  apply mapM_map_eq_ok
  intro c _
  rw [Json.uint32?_nat]
  rfl

def Tagged (c : RawComponent) : Prop := c.op = .proposition ↔ c.label.isSome

instance (c : RawComponent) : Decidable c.Tagged :=
  inferInstanceAs (Decidable (_ ↔ _))

theorem ofJson_toJson {c : RawComponent} (h : c.Tagged) : ofJson c.toJson = .ok c := by
  obtain ⟨id, count, op, inputs, outputs, label⟩ := c
  cases label with
  | none =>
    have hop : op ≠ .proposition := by simpa [Tagged] using h
    simp [ofJson, toJson, Json.length, Json.item, Json.text?, Json.uint32?_nat, Json.int32?_int,
      Op.ofName?_label, idsOfJson_idsToJson, orBad, hop]
    rfl
  | some label =>
    obtain ⟨role, term⟩ := label
    obtain rfl : op = .proposition := by simpa [Tagged] using h
    simp [ofJson, toJson, Json.length, Json.item, Json.text?, Json.uint32?_nat, Json.int32?_int,
      Op.ofName?_label, PropRole.ofTag?_tag, idsOfJson_idsToJson, orBad]
    rfl

theorem tagged_of_ofJson {row : Json} {c : RawComponent} (h : ofJson row = .ok c) : c.Tagged := by
  have hlength : ¬(row.length ≠ 5 ∧ row.length ≠ 7) := by
    intro hlength
    rw [ofJson, if_pos hlength] at h
    cases h
  rw [ofJson, if_neg hlength] at h
  obtain ⟨id, -, h⟩ := exists_of_bind_eq_ok h
  obtain ⟨count, -, h⟩ := exists_of_bind_eq_ok h
  obtain ⟨op, -, h⟩ := exists_of_bind_eq_ok h
  obtain ⟨inputs, -, h⟩ := exists_of_bind_eq_ok h
  obtain ⟨outputs, -, h⟩ := exists_of_bind_eq_ok h
  by_cases hseven : row.length = 7
  · rw [if_pos hseven] at h
    obtain ⟨role, -, h⟩ := exists_of_bind_eq_ok h
    obtain ⟨term, -, h⟩ := exists_of_bind_eq_ok h
    by_cases hop : op = .proposition
    · rw [if_neg (not_not.2 hop)] at h
      cases h
      simp [Tagged, hop]
    · rw [if_pos hop] at h
      cases h
  · rw [if_neg hseven] at h
    by_cases hop : op = .proposition
    · rw [if_pos hop] at h
      cases h
    rw [if_neg hop] at h
    cases h
    simp [Tagged, hop]

theorem plain_idsToJson (ids : List UInt32) : Json.Plain 1 (idsToJson ids) := by
  apply Json.Plain.array
  intro v hv
  obtain ⟨c, -, rfl⟩ := mem_map.1 hv
  exact .number rfl

theorem plain_toJson (c : RawComponent) : Json.Plain 2 c.toJson := by
  apply Json.Plain.array
  intro v hv
  rcases mem_append.1 hv with hv | hv
  · simp only [mem_cons, not_mem_nil, or_false] at hv
    obtain rfl | rfl | rfl | rfl | rfl := hv
    · exact .number rfl
    · exact .number rfl
    · exact .text _
    · exact plain_idsToJson c.inputs
    · exact plain_idsToJson c.outputs
  · cases hlabel : c.label with
    | none => simp [hlabel] at hv
    | some label =>
      simp only [hlabel, Option.elim_some, mem_cons, not_mem_nil, or_false] at hv
      obtain rfl | rfl := hv <;> exact .text _

end RawComponent

/-! ## Whole listings -/

namespace Listing

def Tagged (l : Listing) : Prop := ∀ c ∈ l.components, c.Tagged

instance (l : Listing) : Decidable l.Tagged :=
  inferInstanceAs (Decidable (∀ c ∈ l.components, c.Tagged))

theorem plain_toJson (l : Listing) : Json.Plain 4 l.toJson := by
  refine Json.Plain.object (by simp) ?_
  intro field hfield
  simp only [mem_cons, not_mem_nil, or_false] at hfield
  obtain rfl | rfl | rfl := hfield
  · exact .text format
  · apply Json.Plain.array
    intro v hv
    obtain ⟨role, -, rfl⟩ := mem_map.1 hv
    exact .text role
  · apply Json.Plain.array
    intro v hv
    obtain ⟨c, -, rfl⟩ := mem_map.1 hv
    exact c.plain_toJson

theorem ofJson_toJson {l : Listing} (h : l.Tagged) : ofJson l.toJson = .ok l := by
  have hroles : (l.roles.map Json.text).mapM
      (fun r => RawComponent.orBad r.text? (.badRoleName r.display)) = .ok l.roles :=
    mapM_map_eq_ok l.roles fun _ _ => rfl
  have hcomponents :
      (l.components.toList.map RawComponent.toJson).mapM RawComponent.ofJson =
        .ok l.components.toList :=
    mapM_map_eq_ok _ fun c hc => RawComponent.ofJson_toJson (h c (Array.mem_toList_iff.1 hc))
  rw [ofJson, if_neg (by simp [toJson, Json.field, Json.text?])]
  have hrolesField : (l.toJson.field "roles").items = l.roles.map Json.text := rfl
  have hcomponentsField : (l.toJson.field "components").items =
      l.components.toList.map RawComponent.toJson := rfl
  rw [hrolesField, hcomponentsField, hroles, hcomponents]
  rfl

theorem parse_render_toJson {l : Listing} (h : l.Tagged) : parse l.toJson.render = .ok l := by
  rw [parse, l.plain_toJson.parse_render (by decide)]
  simp [ofJson_toJson h, Except.mapError]

theorem tagged_of_ofJson {data : Json} {l : Listing} (h : ofJson data = .ok l) : l.Tagged := by
  have hformat : ¬(data.field "format").text? ≠ some format := by
    intro hformat
    rw [ofJson, if_pos hformat] at h
    cases h
  rw [ofJson, if_neg hformat] at h
  obtain ⟨roles, -, h⟩ := exists_of_bind_eq_ok h
  obtain ⟨components, hcomponents, h⟩ := exists_of_bind_eq_ok h
  cases h
  intro c hc
  exact forall_mem_of_mapM_eq_ok (fun _ _ => RawComponent.tagged_of_ofJson) hcomponents c (mem_toArray.1 hc)

theorem tagged_of_parse {text : String} {l : Listing} (h : parse text = .ok l) : l.Tagged := by
  unfold parse at h
  split at h
  · cases h
  next data _ =>
  cases hdata : ofJson data with
  | error cause => simp [hdata, Except.mapError] at h
  | ok l' =>
    obtain rfl : l' = l := by simpa [hdata, Except.mapError] using h
    exact tagged_of_ofJson hdata

/-- A listing in which exactly the propositions are tagged is read back from its compact JSON text,
and whatever text is read as a listing, that listing is of this kind. -/
theorem parse_render_of_tagged :
    (∀ l : Listing, l.Tagged → parse l.toJson.render = .ok l) ∧
    ∀ (text : String) (l : Listing), parse text = .ok l →
      l.Tagged ∧ parse l.toJson.render = .ok l := by
  refine ⟨fun l => parse_render_toJson, ?_⟩
  intro text l h
  have htagged := tagged_of_parse h
  exact ⟨htagged, parse_render_toJson htagged⟩

def awkward : Listing where
  roles := ["", "\"\\\x00\n\u2028😀"]
  components := #[
    { id := 4294967295, count := -2147483648, op := .and, inputs := [0, 0] },
    { id := 0, count := 2147483647, op := .proposition, label := some (.other, "\t/\x1f") }]

def loose : String :=
  "\x7b\"format\": \"propnet-listing-0.01\", \"components\": [[7,-1,\"and\",[],[]]]\x7d"

theorem parse_render_of_tagged_awkward :
    (awkward.Tagged ∧ parse awkward.toJson.render = .ok awkward) ∧
      ∃ l, parse loose = .ok l ∧ l.Tagged ∧ parse l.toJson.render = .ok l := by
  have htagged : awkward.Tagged := by decide
  have hloose : (parse loose).isOk = true := by decide +kernel
  obtain ⟨l, hl⟩ := Checked.exists_of_isOk hloose
  exact ⟨⟨htagged, parse_render_of_tagged.1 awkward htagged⟩, l, hl,
    parse_render_of_tagged.2 loose l hl⟩

end Listing

end GameNet
