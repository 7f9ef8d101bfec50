import GameNet.Proofs.InPlace
import GameNet.Proofs.Layout.Places
import Mathlib.Data.Set.Function

/-!
Numbering the components anew is renaming.

If everything that the network refers to is there, any order that names each component once can be used,
and the components get their places in it as names.
-/

namespace GameNet

open List

/-! ## References -/

def Kind.references : Kind → List CompId
  | .proposition p => p.pairedInput.toList ++ p.pairedLegal.toList
  | .transition base => base.toList
  | _ => []

def Component.references (k : Component) : List CompId := k.inputs ++ k.outputs ++ k.kind.references

def Player.references (p : Player) : List CompId := p.inputs ++ p.legals ++ p.goals

section References

variable {f g : CompId → CompId} {new : CompId → Checked CompId}

theorem Kind.references_rename (f : CompId → CompId) (kind : Kind) :
    (kind.rename f).references = kind.references.map f := by
  cases kind with
  | proposition p =>
    cases hi : p.pairedInput <;> cases hl : p.pairedLegal <;> simp [references, rename, hi, hl]
  | transition base => cases base <;> rfl
  | and | or | not | constant => rfl

theorem Component.references_rename (f : CompId → CompId) (k : Component) :
    (k.rename f).references = k.references.map f := by
  simp only [references, rename, Kind.references_rename, map_append]

theorem Kind.rename_congr {kind : Kind} (h : ∀ c ∈ kind.references, f c = g c) :
    kind.rename f = kind.rename g := by
  cases kind with
  | proposition p =>
    obtain ⟨hi, hl⟩ := forall_mem_append.mp h
    simp only [rename, Option.map_congr fun c hc => hi c (Option.mem_toList.mpr hc),
      Option.map_congr fun c hc => hl c (Option.mem_toList.mpr hc)]
  | transition base =>
    exact congrArg Kind.transition (Option.map_congr fun c hc => h c (Option.mem_toList.mpr hc))
  | and | or | not | constant => rfl

theorem Component.rename_congr {k : Component} (h : ∀ c ∈ k.references, f c = g c) :
    k.rename f = k.rename g := by
  obtain ⟨h, hk⟩ := forall_mem_append.mp h
  obtain ⟨hi, ho⟩ := forall_mem_append.mp h
  simp only [rename, Kind.rename_congr hk, map_congr_left hi, map_congr_left ho]

theorem optionMapM_yields {α β : Type} {g : α → Checked β} {f : α → β} (x : Option α)
    (h : ∀ a ∈ x.toList, g a = .ok (f a)) : x.mapM g = .ok (x.map f) := by
  cases x with
  | none => rfl
  | some a =>
    rw [Option.mapM_some, h a (by simp)]
    rfl

theorem Component.renumber_yields {k : Component} (h : ∀ c ∈ k.references, new c = .ok (f c)) :
    k.renumber new = .ok (k.rename f) := by
  obtain ⟨h, hk⟩ := forall_mem_append.mp h
  obtain ⟨hi, ho⟩ := forall_mem_append.mp h
  rw [Component.renumber, Checked.mapM_yields _ hi, Checked.mapM_yields _ ho]
  obtain ⟨kind, inputs, outputs⟩ := k
  cases kind with
  | proposition p =>
    obtain ⟨hin, hleg⟩ := forall_mem_append.mp hk
    change (p.pairedInput.mapM new >>= fun i => p.pairedLegal.mapM new >>= fun l => pure _ :
      Checked Component) = _
    rw [optionMapM_yields _ hin, optionMapM_yields _ hleg]
    rfl
  | transition base =>
    cases base with
    | none => rfl
    | some b =>
      change (new b >>= fun b => pure _ : Checked Component) = _
      rw [hk b (by simp [Kind.references])]
      rfl
  | and | or | not | constant => rfl

theorem Player.renumber_yields {p : Player} (h : ∀ c ∈ p.references, new c = .ok (f c)) : p.renumber new = .ok
      { p with inputs := p.inputs.map f, legals := p.legals.map f, goals := p.goals.map f } := by
  obtain ⟨h, hg⟩ := forall_mem_append.mp h
  obtain ⟨hi, hl⟩ := forall_mem_append.mp h
  rw [Player.renumber, Checked.mapM_yields _ hi, Checked.mapM_yields _ hl, Checked.mapM_yields _ hg]
  rfl

end References

namespace Network

def references (net : Network) : List CompId :=
  net.components.flatMap (·.2.references) ++ net.bases ++ net.inputs ++ net.transitions ++
    net.players.flatMap (·.references) ++ net.levels.flatten ++
    [net.terminal] ++ net.init.toList ++ net.fixedBase.toList

def Resolved (net : Network) : Prop := ∀ c ∈ net.references, net.contains c = true

instance (net : Network) : Decidable net.Resolved :=
  inferInstanceAs (Decidable (∀ c ∈ net.references, net.contains c = true))

structure AtReferences (net : Network) (P : CompId → Prop) : Prop where
  component : ∀ d k, net.get? d = some k → ∀ c ∈ k.references, P c
  bases : ∀ c ∈ net.bases, P c
  inputs : ∀ c ∈ net.inputs, P c
  transitions : ∀ c ∈ net.transitions, P c
  players : ∀ p ∈ net.players, ∀ c ∈ p.references, P c
  levels : ∀ l ∈ net.levels, ∀ c ∈ l, P c
  terminal : P net.terminal
  init : ∀ c ∈ net.init.toList, P c
  fixedBase : ∀ c ∈ net.fixedBase.toList, P c

section AtReferences

variable {net net' net'' : Network} {P : CompId → Prop} {f g : CompId → CompId}
  {order order' both : List CompId}

theorem forall_references : (∀ c ∈ net.references, P c) ↔ net.AtReferences P := by
  simp only [references, forall_mem_append, forall_mem_flatMap, forall_mem_flatten, forall_mem_singleton]
  constructor
  · rintro ⟨⟨⟨⟨⟨⟨⟨⟨hk, hb⟩, hi⟩, ht⟩, hp⟩, hl⟩, hterm⟩, hinit⟩, hf⟩
    exact ⟨fun d k hdk => hk (d, k) (mem_components.mpr hdk), hb, hi, ht, hp, hl, hterm, hinit, hf⟩
  · rintro ⟨hk, hb, hi, ht, hp, hl, hterm, hinit, hf⟩
    exact ⟨⟨⟨⟨⟨⟨⟨⟨fun x hx => hk x.1 x.2 (mem_components.mp hx), hb⟩, hi⟩, ht⟩, hp⟩, hl⟩, hterm⟩, hinit⟩, hf⟩

def renumbered (net : Network) (f : CompId → CompId) (order : List CompId) : Network :=
  net.renamed f order (net.levels.map (·.map f))

theorem renumbered_congr (h : net.AtReferences fun c => f c = g c) :
    net.renumbered f order = net.renumbered g order := by
  have hslots : ∀ c, (net.get? c).map (·.rename f) = (net.get? c).map (·.rename g) := fun c =>
    Option.map_congr fun k hk => Component.rename_congr (h.component c k hk)
  have hplayers : ∀ p ∈ net.players,
      ({ p with inputs := p.inputs.map f, legals := p.legals.map f, goals := p.goals.map f } : Player) =
        { p with inputs := p.inputs.map g, legals := p.legals.map g, goals := p.goals.map g } := by
    intro p hp
    obtain ⟨hrefs, hg⟩ := forall_mem_append.mp (h.players p hp)
    obtain ⟨hi, hl⟩ := forall_mem_append.mp hrefs
    rw [map_congr_left hi, map_congr_left hl, map_congr_left hg]
  unfold renumbered renamed
  rw [map_congr_left h.bases, map_congr_left h.inputs, map_congr_left h.transitions,
    map_congr_left hplayers, map_congr_left fun l hl => map_congr_left (h.levels l hl),
    h.terminal, Option.map_congr fun c hc => h.init c (Option.mem_toList.mpr hc),
    Option.map_congr fun c hc => h.fixedBase c (Option.mem_toList.mpr hc)]
  simp only [hslots]

theorem renumbered_renumbered (h : both.map some = order'.map (order[·]?)) :
    (net.renumbered f order).renumbered g order' = net.renumbered (g ∘ f) both := by
  have hslots : (order'.map fun i => ((net.renumbered f order).get? i).map (·.rename g)) =
      both.map fun c => (net.get? c).map (·.rename (g ∘ f)) := by
    have hget : ∀ i, ((net.renumbered f order).get? i).map (·.rename g) =
        (order[i]?).bind fun c => (net.get? c).map (·.rename (g ∘ f)) := fun i => by
      rw [renumbered, get?_renamed, Option.map_bind]
      refine congrArg _ (funext fun c => ?_)
      rw [Function.comp_apply, Option.map_map]
      exact congrArg (fun r => (net.get? c).map r) (funext fun k => Component.rename_rename f k g)
    -- what the second order finds at a number is what the first had put there
    calc order'.map (fun i => ((net.renumbered f order).get? i).map (·.rename g))
        = (order'.map (order[·]?)).map (·.bind fun c => (net.get? c).map (·.rename (g ∘ f))) := by
          rw [map_map]
          exact map_congr_left fun i _ => hget i
      _ = both.map fun c => (net.get? c).map (·.rename (g ∘ f)) := by
          rw [← h, map_map]
          rfl
  unfold renumbered at hslots ⊢
  rw [renamed, hslots]
  simp only [renamed, map_map, Option.map_map, Function.comp_def]

theorem Orders.resolved (ho : Orders net order) (hr : net.Resolved) :
    (net.renumbered (net.placeIn order) order).Resolved := by
  have hname : ∀ c, net.contains c →
      (net.renumbered (net.placeIn order) order).contains (net.placeIn order c) = true := fun c hc =>
    ((ho.renames _).contains c).trans hc
  have hmap : ∀ cs : List CompId, (∀ c ∈ cs, net.contains c) →
      ∀ c ∈ cs.map (net.placeIn order), (net.renumbered (net.placeIn order) order).contains c = true := by
    intro cs hcs
    exact forall_mem_map.mpr fun c hc => hname c (hcs c hc)
  -- every list of references is renamed as a whole
  have h := forall_references.mp hr
  refine forall_references.mpr
    { component := fun d k' hk' => ?_
      bases := hmap _ h.bases
      inputs := hmap _ h.inputs
      transitions := hmap _ h.transitions
      players := forall_mem_map.mpr fun p hp => ?_
      levels := forall_mem_map.mpr fun l hl => hmap _ (h.levels l hl)
      terminal := hname _ h.terminal
      init := ?_
      fixedBase := ?_ }
  · rw [renumbered, get?_renamed] at hk'
    obtain ⟨c, -, hk'⟩ := Option.bind_eq_some_iff.mp hk'
    obtain ⟨k, hk, rfl⟩ := Option.map_eq_some_iff.mp hk'
    rw [Component.references_rename]
    exact hmap _ (h.component c k hk)
  · have hp := hmap _ (h.players p hp)
    simpa only [Player.references, map_append] using hp
  · have hinit := hmap _ h.init
    rwa [← Option.toList_map] at hinit
  · have hfixed := hmap _ h.fixedBase
    rwa [← Option.toList_map] at hfixed

end AtReferences

/-! ## Orders that are accepted -/

section Accepted

variable {net net' net'' : Network} {order order' both : List CompId} {c i : CompId}

theorem orders_iff : Orders net order ↔ order.Nodup ∧ ∀ c, c ∈ order ↔ net.contains c := by
  refine ⟨fun h => ⟨h.nodup, h.live⟩, fun h => ⟨h.1, h.2, ?_⟩⟩
  rw [(perm_ids h.1 h.2).length_eq, length_ids]
  exact Array.countP_le_size

theorem Orders.length_eq (h : Orders net order) : order.length = net.size := by
  rw [(perm_ids h.nodup h.live).length_eq, length_ids]

theorem Orders.renumber_yields (ho : Orders net order) (hr : net.Resolved) :
    net.renumber order = .ok (net.renumbered (net.placeIn order) order) := by
  obtain ⟨table, htable, htabled⟩ := newNumbers_yields ho.nodup fun c hc => (ho.live c).mp hc
  have hnew : ∀ c, net.contains c → newNumber table c = .ok (net.placeIn order c) := fun c hc => by
    obtain ⟨i, hi⟩ := getElem?_of_mem ((ho.live c).mpr hc)
    rw [placeIn_of_getElem? ho hi]
    exact newNumber_eq_ok_iff.mpr ((htabled.place c i).mpr hi)
  -- so the table is asked only for what it has
  have h := forall_references.mp fun c hc => hnew c (hr c hc)
  refine renumber_eq_ok_iff.mpr ⟨table,
    { tabled := htable
      length := ho.length_eq
      slots := Checked.mapM_yields order fun c hc => ?_
      bases := Checked.mapM_yields _ h.bases
      inputs := Checked.mapM_yields _ h.inputs
      transitions := Checked.mapM_yields _ h.transitions
      players := Checked.mapM_yields _ fun p hp => Player.renumber_yields (h.players p hp)
      levels := Checked.mapM_yields _ fun l hl => Checked.mapM_yields _ (h.levels l hl)
      terminal := h.terminal
      init := optionMapM_yields _ h.init
      fixedBase := optionMapM_yields _ h.fixedBase
      roles := rfl
      start := rfl }⟩
  obtain ⟨k, hk⟩ := contains_iff.mp ((ho.live c).mp hc)
  rw [get_of_get? hk, hk]
  change (k.renumber (newNumber table) >>= fun k => pure (some k) : Checked (Option Component)) = _
  rw [Component.renumber_yields (h.component c k hk)]
  rfl

theorem Resolved.renumber_eq_ok (hr : net.Resolved) : net.renumber order = .ok net' ↔
    Orders net order ∧ net' = net.renumbered (net.placeIn order) order := by
  refine ⟨fun h => renumber_ensures net order net' h, ?_⟩
  rintro ⟨ho, rfl⟩
  exact ho.renumber_yields hr

section

variable (ho : Orders net order) (h : both.map some = order'.map (order[·]?))
include ho h

theorem Orders.through : (∀ c ∈ both, net.contains c) ∧ order' = both.map (net.placeIn order) := by
  have hpair : List.Forall₂ (fun c i => order[i]? = some c) both order' := by
    have h' : List.Forall₂ (· = ·) (both.map some) (order'.map (order[·]?)) := by
      rw [h]
      exact forall₂_refl _
    exact (forall₂_map_right_iff.mp (forall₂_map_left_iff.mp h')).imp fun _ _ h => h.symm
  clear h
  induction hpair with
  | nil => exact ⟨forall_mem_nil _, rfl⟩
  | cons hci _ ih =>
    refine ⟨forall_mem_cons.mpr ⟨(ho.live _).mp (mem_of_getElem? hci), ih.1⟩, ?_⟩
    rw [map_cons, placeIn_of_getElem? ho hci, ← ih.2]

theorem Orders.through_iff : Orders (net.renumbered (net.placeIn order) order) order' ↔ Orders net both := by
  obtain ⟨hlive, rfl⟩ := ho.through h
  have hren : Renames (net.placeIn order) net (net.renumbered (net.placeIn order) order) := ho.renames _
  have hmem : ∀ c, net.placeIn order c ∈ both.map (net.placeIn order) ↔ c ∈ both := fun c =>
    mem_map_of_injective ho.injective
  rw [orders_iff, orders_iff, nodup_map_iff ho.injective]
  refine and_congr_right fun _ => ⟨fun hall c => ?_, fun hall i => ?_⟩
  · rw [← hmem, hall, hren.contains]
  constructor
  · intro hi
    obtain ⟨c, hc, rfl⟩ := mem_map.mp hi
    exact (hren.contains c).trans (hlive c hc)
  · intro hi
    obtain ⟨c, hc, rfl⟩ := hren.onto i hi
    exact (hmem c).mpr ((hall c).mpr hc)

theorem Orders.placeIn_placeIn (ho' : Orders (net.renumbered (net.placeIn order) order) order')
    (hc : net.contains c) :
    (net.renumbered (net.placeIn order) order).placeIn order' (net.placeIn order c) = net.placeIn both c := by
  have hboth : Orders net both := (ho.through_iff h).mp ho'
  obtain ⟨j, hj⟩ := getElem?_of_mem ((hboth.live c).mpr hc)
  have hj' : order'[j]? = some (net.placeIn order c) := by
    rw [(ho.through h).2, getElem?_map, hj]
    rfl
  rw [placeIn_of_getElem? ho' hj', placeIn_of_getElem? hboth hj]

end

theorem Orders.renumber_renumbered (ho : Orders net order) (hr : net.Resolved)
    (h : both.map some = order'.map (order[·]?)) :
    (net.renumbered (net.placeIn order) order).renumber order' = .ok net'' ↔
      net.renumber both = .ok net'' := by
  rw [hr.renumber_eq_ok, (ho.resolved hr).renumber_eq_ok, ho.through_iff h]
  refine and_congr_right fun hboth => ?_
  have hsame : (net.renumbered (net.placeIn order) order).renumbered
      ((net.renumbered (net.placeIn order) order).placeIn order') order' =
        net.renumbered (net.placeIn both) both := by
    rw [renumbered_renumbered h]
    -- the names agree on components, and nothing else is referred to
    exact renumbered_congr (forall_references.mp fun c hc =>
      ho.placeIn_placeIn h ((ho.through_iff h).mpr hboth) (hr c hc))
  rw [hsame]

theorem Orders.exists_through (ho : Orders net order)
    (ho' : Orders (net.renumbered (net.placeIn order) order) order') :
    ∃ both : List CompId, both.map some = order'.map (order[·]?) := by
  refine ⟨order'.map fun i => (order[i]?).getD 0, ?_⟩
  rw [map_map]
  refine map_congr_left fun i hi => ?_
  have hlt : i < order.length := (ho.contains_renamed _).mp ((ho'.live i).mp hi)
  rw [Function.comp_apply, getElem?_eq_getElem hlt]
  rfl

end Accepted

/-! ## Orders that are refused -/

inductive OrderFault (net : Network) (order : List CompId) : Fault → Prop
  | absent {c} : c ∈ order → net.contains c = false → OrderFault net order (net.invariant c .badOrder)
  | repeated {c} : 1 < order.count c → OrderFault net order (net.invariant c .badOrder)
  | missing {c} : net.contains c = true → c ∉ order → OrderFault net order (net.invariant c .orderMisses)

section Refused

variable {net : Network} {order : List CompId} {table : Array (Option CompId)} {e : Fault}

theorem RefusesOrder.fault (h : RefusesOrder net order e) : OrderFault net order e := by
  obtain ⟨done, c, rest, rfl, hturn, rfl⟩ := h
  cases hc : net.contains c with
  | false => exact .absent (mem_append_right _ mem_cons_self) hc
  | true =>
    have hpos := count_pos_iff.mpr (hturn hc)
    refine .repeated ?_
    rw [count_append, count_cons_self]
    omega

theorem Tabled.exists_missing (h : Tabled net order table) (hlen : order.length ≠ net.size) :
    ∃ c, (net.ids.find? fun c => ((table[c]?).join).isNone) = some c ∧ net.contains c ∧ c ∉ order := by
  have hnone : ∀ c, ((table[c]?).join).isNone = true ↔ c ∉ order := fun c => by
    rw [Option.isNone_iff_eq_none, Option.eq_none_iff_forall_ne_some]
    constructor
    · intro hall hc
      obtain ⟨i, hi⟩ := getElem?_of_mem hc
      exact hall i ((h.place c i).mpr hi)
    · intro hc i hi
      exact hc (mem_of_getElem? ((h.place c i).mp hi))
  cases hfind : net.ids.find? fun c => ((table[c]?).join).isNone with
  | some c =>
    have hfree : ((table[c]?).join).isNone = true :=
      find?_some (p := fun c => ((table[c]?).join).isNone) hfind
    exact ⟨c, rfl, mem_ids.mp (mem_of_find?_eq_some hfind), (hnone c).mp hfree⟩
  | none =>
    have hall : ∀ c, c ∈ order ↔ net.contains c := fun c => by
      refine ⟨h.live c, fun hc => ?_⟩
      by_contra hnot
      exact find?_eq_none.mp hfind c (mem_ids.mpr hc) ((hnone c).mpr hnot)
    exact absurd (orders_iff.mpr ⟨h.nodup, hall⟩).length_eq hlen

theorem renumber_error (hr : net.Resolved) (h : net.renumber order = .error e) : OrderFault net order e := by
  rcases newNumbers_outcome net order with ⟨table, htable, htabled⟩ | ⟨e', htable, he'⟩
  · by_cases hlen : order.length = net.size
    · rw [(htabled.orders hlen).renumber_yields hr] at h
      cases h
    · obtain ⟨c, hfind, hc, hnot⟩ := htabled.exists_missing hlen
      unfold renumber at h
      rw [htable] at h
      change (if order.length ≠ net.size then _ else _ : Checked Network) = _ at h
      rw [if_pos hlen, hfind] at h
      cases h
      exact .missing hc hnot
  · unfold renumber at h
    rw [htable] at h
    cases h
    exact he'.fault

end Refused

/-! ## Renumbering in place -/

def checkLength (net : Network) (order : List CompId) (table : Array (Option CompId)) : Checked Unit :=
  if order.length ≠ net.size then
    throw (net.invariant ((net.ids.find? fun c => ((table[c]?).join).isNone).getD 0) .orderMisses)
  else pure ()

def takeOut (new : CompId → Checked CompId) (c : CompId) : InPlace Network (Option Component) := do
  let k ← InPlace.ask (·.get c)
  InPlace.change (·.remove c)
  return some (← InPlace.ask fun _ => k.renumber new)

def renumberInPlace (order : List CompId) : InPlace Network Unit := do
  let table ← InPlace.ask (·.newNumbers order)
  InPlace.ask (·.checkLength order table)
  let new := newNumber table
  let slots ← order.mapM (takeOut new)
  InPlace.change fun net => { net with slots := slots.toArray }
  InPlace.put (·.bases.mapM new) fun net bases => { net with bases }
  InPlace.put (·.inputs.mapM new) fun net inputs => { net with inputs }
  InPlace.put (·.transitions.mapM new) fun net transitions => { net with transitions }
  InPlace.put (·.players.mapM (·.renumber new)) fun net players => { net with players }
  InPlace.put (·.levels.mapM (·.mapM new)) fun net levels => { net with levels }
  InPlace.put (fun net => new net.terminal) fun net terminal => { net with terminal }
  InPlace.put (·.init.mapM new) fun net init => { net with init }
  InPlace.put (·.fixedBase.mapM new) fun net fixedBase => { net with fixedBase }

section InPlace

variable {net : Network} {order : List CompId} {new : CompId → Checked CompId}

theorem takeOut_follows (net : Network) (new : CompId → Checked CompId) (c : CompId) :
    InPlace.Follows ((takeOut new c).on net) (do return some (← (← net.get c).renumber new)) id
      fun _ => net.remove c := by
  refine .bind (.ask _) fun k => ?_
  have hchange := InPlace.on_change (·.remove c) net
  rw [id, InPlace.on_bind_ok hchange]
  exact .bind (.ask fun _ => k.renumber new) fun k' => .of_ok (a := some k') rfl rfl

theorem takeOut_mapM_follows {net₀ : Network} (hd : order.Nodup) (h : ∀ c ∈ order, net.get c = net₀.get c) :
    InPlace.Follows ((order.mapM (takeOut new)).on net)
      (order.mapM fun c => do return some (← (← net₀.get c).renumber new)) id
      fun _ => order.foldl remove net := by
  induction order generalizing net with
  | nil => exact .of_ok (a := []) rfl rfl
  | cons c order ih =>
    obtain ⟨hc, hd⟩ := nodup_cons.mp hd
    have hrest : ∀ d ∈ order, (net.remove c).get d = net₀.get d := fun d hdc => by
      have hne : d ≠ c := fun heq => hc (heq ▸ hdc)
      rw [← h d (mem_cons_of_mem c hdc), get, get, get?_remove, if_neg hne]
    rw [mapM_cons, mapM_cons, ← h c mem_cons_self]
    refine .bind (takeOut_follows net new c) fun k => ?_
    exact .bind (ih hd hrest) fun ks => .of_ok (a := k :: ks) rfl rfl

theorem foldl_remove (net : Network) (order : List CompId) :
    ∃ slots, order.foldl remove net = { net with slots } := by
  induction order generalizing net with
  | nil => exact ⟨net.slots, rfl⟩
  | cons c order ih => exact ih (net.remove c)

theorem renumberInPlace_follows (net : Network) (order : List CompId) :
    InPlace.Follows ((renumberInPlace order).on net) (net.renumber order) (fun _ => ()) id := by
  have htable := InPlace.on_ask (·.newNumbers order) net
  unfold renumberInPlace renumber
  cases hnew : net.newNumbers order with
  | error e =>
    rw [hnew] at htable
    rw [InPlace.on_bind_error htable]
    exact .fail
  | ok table =>
    rw [hnew] at htable
    rw [InPlace.on_bind_ok htable]
    have hlength := InPlace.on_ask (·.checkLength order table) net
    change InPlace.Follows _ (if order.length ≠ net.size then _ else _ : Checked Network) _ _
    by_cases hlen : order.length = net.size
    swap
    · rw [checkLength, if_pos hlen] at hlength
      rw [InPlace.on_bind_error hlength, if_pos hlen]
      exact .fail
    -- from here on there is writing: first all slots, whatever was left in them, then list by list
    rw [checkLength, if_neg (not_not.mpr hlen)] at hlength
    rw [InPlace.on_bind_ok hlength, if_neg (not_not.mpr hlen)]
    have htabled := newNumbers_ensures net order table hnew
    refine .bind (takeOut_mapM_follows htabled.nodup fun _ _ => rfl) fun slots => ?_
    obtain ⟨left, hleft⟩ := foldl_remove net order
    rw [hleft]
    have hslots := InPlace.on_change (fun net => { net with slots := slots.toArray })
      { net with slots := left }
    rw [id, InPlace.on_bind_ok hslots]
    refine .bind (.put ..) fun bases => .bind (.put ..) fun inputs => .bind (.put ..) fun transitions =>
      .bind (.put ..) fun players => .bind (.put ..) fun levels => .bind (.put ..) fun terminal =>
      .bind (.put ..) fun init => .map (.put ..)

/-- An order that is refused leaves the network as it was. -/
theorem renumberInPlace_error {e : Fault} (hr : net.Resolved) (h : net.renumber order = .error e) :
    (renumberInPlace order).on net = (.error e, net) := by
  refine Prod.ext ((renumberInPlace_follows net order).error e h) ?_
  have htable := InPlace.on_ask (·.newNumbers order) net
  unfold renumberInPlace
  cases hnew : net.newNumbers order with
  | error e' =>
    rw [hnew] at htable
    rw [InPlace.on_bind_error htable]
  | ok table =>
    rw [hnew] at htable
    have hlength := InPlace.on_ask (·.checkLength order table) net
    -- with a table for an order of full length nothing can fail, so it is the length that is wrong
    have hlen : order.length ≠ net.size := fun hlen => by
      rw [((newNumbers_ensures net order table hnew).orders hlen).renumber_yields hr] at h
      cases h
    rw [checkLength, if_pos hlen] at hlength
    rw [InPlace.on_bind_ok htable, InPlace.on_bind_error hlength]

end InPlace

/-! ## Isomorphism -/

/-- If all references lead to components, an order is accepted just when it names every component once,
and otherwise it is reported what is wrong with it, with nothing written. The component at each place of
the order gets this place as its number, everything that is said about it follows, and no number is left
out. Numbering anew once more is like numbering once in the order of the places. -/
theorem renumber_isomorphism (net : Network) (hr : net.Resolved) (order : List CompId) :
    ((∃ net', net.renumber order = .ok net') ↔
      order.Nodup ∧ ∀ c, c ∈ order ↔ net.contains c = true) ∧
    (∀ e, net.renumber order = .error e →
      (renumberInPlace order).on net = (.error e, net) ∧ OrderFault net order e) ∧
    ∀ net', net.renumber order = .ok net' →
      (renumberInPlace order).on net = (.ok (), net') ∧
      (∃ f, (∀ (i : Nat) c, order[i]? = some c → f c = i) ∧
        Set.BijOn f {c | net.contains c = true} {i | net'.contains i = true} ∧
        net' = net.renumbered f order) ∧
      (∀ i, net'.contains i = true ↔ i < order.length) ∧ net'.capacity = order.length ∧
      ∀ order' net'', net'.renumber order' = .ok net'' ↔
        ∃ both : List CompId, both.map some = order'.map (order[·]?) ∧ net.renumber both = .ok net'' := by
  refine ⟨?_, fun e h => ⟨renumberInPlace_error hr h, renumber_error hr h⟩, fun net' h => ?_⟩
  · rw [← orders_iff]
    exact ⟨fun h => h.elim fun net' h => (hr.renumber_eq_ok.mp h).1,
      fun ho => ⟨_, ho.renumber_yields hr⟩⟩
  have hplace := (renumberInPlace_follows net order).ok net' h
  obtain ⟨ho, rfl⟩ := hr.renumber_eq_ok.mp h
  have hren : Renames (net.placeIn order) net (net.renumbered (net.placeIn order) order) := ho.renames _
  refine ⟨hplace, ⟨net.placeIn order, fun i c => placeIn_of_getElem? ho, ⟨fun c hc => ?_, ?_, ?_⟩, rfl⟩,
    fun i => ho.contains_renamed _, by simp [renumbered, renamed, capacity], fun order' net'' => ?_⟩
  · exact (hren.contains c).trans hc
  · exact ho.injective.injOn
  · intro i hi
    obtain ⟨c, hc, rfl⟩ := hren.onto i hi
    exact ⟨c, hc, rfl⟩
  · constructor
    · intro h'
      have ho' := ((ho.resolved hr).renumber_eq_ok.mp h').1
      obtain ⟨both, hboth⟩ := ho.exists_through ho'
      exact ⟨both, hboth, (ho.renumber_renumbered hr hboth).mp h'⟩
    · rintro ⟨both, hboth, h'⟩
      exact (ho.renumber_renumbered hr hboth).mpr h'

/-- A small game in which every sort of reference occurs. The number 1 is not in use. -/
def patchwork : Network :=
  let prop (role : PropRole) (text : String) : Proposition := { role, term := .atom text }
  { roles := ["hand"]
    slots := #[
      some { kind := .proposition (prop .base "lit"), outputs := [4] },
      none,
      some { kind := .transition (some 0), inputs := [4] },
      some { kind := .proposition { prop .input "press" with player := some 0, pairedLegal := some 5 }
             outputs := [4] },
      some { kind := .or, inputs := [0, 3], outputs := [2, 5, 6], level := 1 },
      some { kind := .proposition { prop .legal "press" with player := some 0, pairedInput := some 3 }
             inputs := [4], level := 2 },
      some { kind := .proposition (prop .terminal "terminal"), inputs := [4], level := 2 },
      some { kind := .proposition (prop .init "init") }]
    bases := [0], inputs := [3], transitions := [2], terminal := 6, init := some 7, fixedBase := some 0
    players := [{ name := "hand", inputs := [3], legals := [5] }]
    levels := [[0, 3, 7], [4]] }

/-- The gate goes to the front and the gap is closed; then all is turned round. Without the gate there is
no new numbering. -/
theorem renumber_isomorphism_patchwork :
    patchwork.Resolved ∧ patchwork.contains 1 = false ∧
      (∃ net' net'', patchwork.renumber [4, 0, 2, 3, 5, 6, 7] = .ok net' ∧
        net'.op? 0 = some .or ∧ net'.inputsOf 0 = [1, 3] ∧ net'.outputsOf 0 = [2, 4, 5] ∧
        net'.init = some 6 ∧ net'.levels = [[1, 3, 6], [0]] ∧
        net'.renumber [6, 5, 4, 3, 2, 1, 0] = .ok net'' ∧
        patchwork.renumber [7, 6, 5, 3, 2, 0, 4] = .ok net'') ∧
      (renumberInPlace [0, 2, 3, 5, 6, 7]).on patchwork =
        (.error (patchwork.invariant 4 .orderMisses), patchwork) := by
  have hr : patchwork.Resolved := by decide
  have hlive : ∀ order : List CompId, order.Perm [0, 2, 3, 4, 5, 6, 7] →
      order.Nodup ∧ ∀ c, c ∈ order ↔ patchwork.contains c = true := fun order hp => by
    refine ⟨hp.nodup_iff.mpr (by decide), fun c => ?_⟩
    rw [hp.mem_iff, ← mem_ids]
    rfl
  obtain ⟨net', h'⟩ := (renumber_isomorphism patchwork hr [4, 0, 2, 3, 5, 6, 7]).1.mpr (hlive _ (by decide))
  obtain ⟨net'', h''⟩ := (renumber_isomorphism patchwork hr [7, 6, 5, 3, 2, 0, 4]).1.mpr (hlive _ (by decide))
  obtain ⟨-, ⟨f, hf, -, hnet'⟩, -, -, htwice⟩ :=
    (renumber_isomorphism patchwork hr [4, 0, 2, 3, 5, 6, 7]).2.2 net' h'
  have h0 := hf 1 0 rfl
  have h2 := hf 2 2 rfl
  have h3 := hf 3 3 rfl
  have h4 := hf 0 4 rfl
  have h5 := hf 4 5 rfl
  have h6 := hf 5 6 rfl
  have h7 := hf 6 7 rfl
  refine ⟨hr, rfl, ⟨net', net'', h', ?_, ?_, ?_, ?_, ?_, (htwice _ net'').mpr ⟨_, rfl, h''⟩, h''⟩,
    ((renumber_isomorphism patchwork hr [0, 2, 3, 5, 6, 7]).2.1 _ rfl).1⟩
  · rw [hnet']
    rfl
  · rw [hnet']
    change [f 0, f 3] = _
    rw [h0, h3]
  · rw [hnet']
    change [f 2, f 5, f 6] = _
    rw [h2, h5, h6]
  · rw [hnet']
    change some (f 7) = _
    rw [h7]
  · rw [hnet']
    change [[f 0, f 3, f 7], [f 4]] = _
    rw [h0, h3, h4, h7]

end Network

end GameNet
