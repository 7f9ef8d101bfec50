import GameNet.Proofs.Game.Cast
import GameNet.Proofs.Listing.Build
import GameNet.Simplify.Endpoints

/-!
The network that the compiler starts from: what a listing builds, with transitions cut from their bases.
-/

namespace GameNet

open List
open Option hiding or_self

/-! ## Rows before anything is recorded -/

namespace Listing

theorem playerOf_lt {roles : List String} {t : Term} {r : Nat} (h : playerOf roles t = .ok r) :
    r < roles.length := by
  unfold playerOf at h
  split at h
  · next p hp =>
    cases h
    obtain ⟨hlt, -⟩ := findIdx?_eq_some_iff_findIdx_eq.mp hp
    exact hlt
  · cases h

structure Plain (roles : List String) (part : PropRole) (p : Proposition) : Prop where
  role : p.role = part
  pairedInput : p.pairedInput = none
  pairedLegal : p.pairedLegal = none
  player : part = .input ∨ part = .legal ∨ part = .goal → ∃ r, p.player = some r ∧ r < roles.length

theorem classify_plain {roles : List String} {part : PropRole} {term : Term} {p : Proposition}
    (h : classify roles part term = .ok p) : Plain roles part p := by
  have hbare : ∀ {part : PropRole}, ¬ (part = .input ∨ part = .legal ∨ part = .goal) →
      ∀ c : Prop, ∀ [Decidable c] e, (if c then pure ({ role := part, term } : Proposition) else throw e :
        Except StructuralCause Proposition) = .ok p → Plain roles part p := by
    intro part hpart c _ e h
    split at h
    · cases h
      exact ⟨rfl, rfl, rfl, fun h' => absurd h' hpart⟩
    · cases h
  unfold classify at h
  cases part
  case base => exact hbare (by decide) _ _ h
  case init => exact hbare (by decide) _ _ h
  case terminal => exact hbare (by decide) _ _ h
  case other =>
    cases h
    exact ⟨rfl, rfl, rfl, fun h' => absurd h' (by decide)⟩
  -- the others name a player, and a goal has a value besides
  case input | legal =>
    dsimp only at h
    split at h
    · obtain ⟨i, hi, h⟩ := exists_of_bind_eq_ok h
      cases h
      exact ⟨rfl, rfl, rfl, fun _ => ⟨i, rfl, playerOf_lt hi⟩⟩
    · cases h
  case goal =>
    dsimp only at h
    split at h
    · obtain ⟨i, hi, h⟩ := exists_of_bind_eq_ok h
      obtain ⟨n, -, h⟩ := exists_of_bind_eq_ok h
      cases h
      exact ⟨rfl, rfl, rfl, fun _ => ⟨i, rfl, playerOf_lt hi⟩⟩
    · cases h

theorem kindOf_plain {roles : List String} {r : RawComponent} {kind : Kind}
    (h : kindOf roles r = .ok kind) : kind.op = r.op ∧ (∀ b, kind = .transition b → b = none) ∧
      ∀ p, kind = .proposition p → ∃ part text, r.label = some (part, text) ∧ Plain roles part p := by
  unfold kindOf at h
  split at h
  · next part text hop hlabel =>
    obtain ⟨term, -, h⟩ := exists_of_bind_eq_ok h
    split at h
    · next p hp =>
      cases h
      refine ⟨hop.symm, fun b hb => (by cases hb), fun q hq => ?_⟩
      cases hq
      exact ⟨part, text, hlabel, classify_plain hp⟩
    · cases h
  · cases h
  all_goals
    next hop =>
      cases h
      exact ⟨hop.symm, fun b hb => (by grind), fun q hq => (by cases hq)⟩

end Listing

/-! ## Parts after recording -/

namespace Network

structure Unrecorded (net : Network) : Prop where
  unpaired : ∀ c p, net.proposition? c = some p → p.pairedInput = none ∧ p.pairedLegal = none
  player : ∀ c p, net.proposition? c = some p → p.role = .legal ∨ p.role = .goal →
    ∃ r, p.player = some r ∧ r < net.roles.length
  transition : ∀ c b, net.kind? c = some (.transition b) → b = none

section Registered

variable {net net' : Network} {pairs : List (CompId × CompId)} {c : CompId}

section

variable (h : Registered net pairs net')
include h

theorem Registered.op?_of_lookup {b : CompId} (hl : pairs.lookup c = some b) :
    net.op? c = some .transition := (h.drives _ ((lookup_eq_some_iff_mem h.nodup).mp hl)).2.1

theorem Registered.lookup_eq_none (hc : net.contains c = false) : pairs.lookup c = none := by
  rw [Option.eq_none_iff_forall_ne_some]
  intro b hl
  rw [contains_of_op? (h.op?_of_lookup hl)] at hc
  cases hc

theorem Registered.driving_keeps {k : Component} (hk : net.get? c = some k) :
    (driving pairs c k).op = k.op ∧ (driving pairs c k).proposition? = k.proposition? := by
  refine Network.driving_keeps fun b hl => ?_
  have hop := h.op?_of_lookup hl
  rwa [op?_of_get? hk, Option.some.injEq] at hop

theorem Registered.proposition?_of_get? (hc : net.contains c) : net'.proposition? c =
      (net.proposition? c).map (paired (net.withRole .legal) net.counterpart? c) := by
  obtain ⟨k, hk⟩ := contains_iff.mp hc
  have hinit : net.withInit c = some k := by
    rw [withInit, if_neg, hk]
    rintro ⟨-, rfl⟩
    rw [get?_capacity] at hk
    cases hk
  have hget := h.get? c
  rw [hinit] at hget
  rw [Network.proposition?, hget, Network.proposition?, hk]
  change ((driving pairs c k).mapProposition _).proposition? = _
  rw [Component.proposition?_mapProposition, (h.driving_keeps hk).2]
  rfl

theorem Registered.proposition?_of_none (hc : net.contains c = false)
    {p : Proposition} (hp : net'.proposition? c = some p) :
    net.withRole .init = [] ∧ c = net.capacity ∧ p.role = .init ∧ p.pairedInput = none := by
  have hget := h.get? c
  rw [withInit] at hget
  split at hget
  · next hnew =>
    have hfree : c ∉ net.withRole .legal := by
      intro hmem
      rw [contains_of_isRole (mem_withRole.mp hmem)] at hc
      cases hc
    rw [Network.proposition?, hget] at hp
    change ((driving pairs c (.new ownInit 0)).mapProposition _).proposition? = _ at hp
    rw [Component.proposition?_mapProposition, driving, h.lookup_eq_none hc] at hp
    have hp := Option.some.inj hp
    subst hp
    refine ⟨hnew.1, hnew.2, ?_, ?_⟩
    · exact if_neg fun h => hfree h.1
    · exact if_neg hfree
  · rw [get?_eq_none_iff.mpr hc] at hget
    rw [Network.proposition?, hget] at hp
    cases hp

theorem Registered.isRole_iff {role : PropRole} (hl : role ≠ .legal)
    (ho : role ≠ .other) : net'.isRole c role ↔ net.isRole c role ∨
      role = .init ∧ net.withRole .init = [] ∧ c = net.capacity := by
  by_cases hc : net.contains c
  · rw [Network.isRole_iff, Network.isRole_iff, h.proposition?_of_get? hc]
    have hnew : ¬ (role = .init ∧ net.withRole .init = [] ∧ c = net.capacity) := by
      rintro ⟨-, -, rfl⟩
      obtain ⟨k, hk⟩ := contains_iff.mp hc
      rw [get?_capacity] at hk
      cases hk
    rw [or_iff_left hnew]
    constructor
    · rintro ⟨p', hp', hrole⟩
      obtain ⟨p, hp, rfl⟩ := map_eq_some_iff.mp hp'
      refine ⟨p, hp, ?_⟩
      rw [paired] at hrole
      dsimp only at hrole
      split at hrole
      · exact absurd hrole.symm ho
      · exact hrole
    · rintro ⟨p, hp, rfl⟩
      refine ⟨_, map_eq_some_iff.mpr ⟨p, hp, rfl⟩, if_neg ?_⟩
      rintro ⟨hmem, -⟩
      obtain ⟨q, hq, hlegal⟩ := Network.isRole_iff.mp (mem_withRole.mp hmem)
      rw [hp] at hq
      cases hq
      exact hl hlegal
  · rw [Bool.not_eq_true] at hc
    constructor
    · intro hr
      obtain ⟨p, hp, rfl⟩ := Network.isRole_iff.mp hr
      obtain ⟨hnone, hcap, hrole, -⟩ := h.proposition?_of_none hc hp
      exact .inr ⟨hrole, hnone, hcap⟩
    rintro (hr | ⟨rfl, hnone, rfl⟩)
    · rw [contains_of_isRole hr] at hc
      cases hc
    have hget := h.get? net.capacity
    rw [withInit, if_pos ⟨hnone, rfl⟩] at hget
    have hp : ∃ p, net'.proposition? net.capacity = some p := by
      rw [Network.proposition?, hget]
      refine ⟨paired (net.withRole .legal) net.counterpart? net.capacity
        { role := .init, term := .atom "init" }, ?_⟩
      change ((driving pairs net.capacity (.new ownInit 0)).mapProposition _).proposition? = _
      rw [Component.proposition?_mapProposition, driving, h.lookup_eq_none hc]
      rfl
    obtain ⟨p, hp⟩ := hp
    exact Network.isRole_iff.mpr ⟨p, hp, (h.proposition?_of_none hc hp).2.2.1⟩

theorem Registered.pairedInput?_iff (hu : net.Unrecorded) {l i : CompId} :
    net'.pairedInput? l = some i ↔ net.isRole l .legal ∧ net.counterpart? l = some i := by
  rw [pairedInput?_eq]
  by_cases hc : net.contains l
  · rw [h.proposition?_of_get? hc]
    constructor
    · intro hl
      obtain ⟨p', hp', hi⟩ := bind_eq_some_iff.mp hl
      obtain ⟨p, hp, rfl⟩ := map_eq_some_iff.mp hp'
      rw [paired] at hi
      dsimp only at hi
      rw [(hu.unpaired l p hp).1, or_none] at hi
      split at hi
      · next hmem => exact ⟨mem_withRole.mp hmem, hi⟩
      · cases hi
    · rintro ⟨hrole, hi⟩
      obtain ⟨p, hp, -⟩ := Network.isRole_iff.mp hrole
      rw [hp, map_some, bind_some, paired]
      dsimp only
      rw [if_pos (mem_withRole.mpr hrole), hi]
      rfl
  · rw [Bool.not_eq_true] at hc
    constructor
    · intro hl
      obtain ⟨p, hp, hi⟩ := bind_eq_some_iff.mp hl
      rw [(h.proposition?_of_none hc hp).2.2.2] at hi
      cases hi
    · rintro ⟨hrole, -⟩
      rw [contains_of_isRole hrole] at hc
      cases hc

theorem Registered.isRole_of_paired {l i : CompId} (hl : net.isRole l .legal)
    (hi : net.counterpart? l = some i) : net'.isRole l .legal := by
  obtain ⟨p, hp, hrole⟩ := Network.isRole_iff.mp hl
  refine Network.isRole_iff.mpr ⟨_, by rw [h.proposition?_of_get? (contains_of_isRole hl), hp]; rfl, ?_⟩
  rw [paired]
  dsimp only
  rw [hi, if_neg fun hnone => by cases hnone.2]
  exact hrole

end

theorem isRole_of_counterpart? (hkeys : (net.moveTable.map (·.1)).Nodup) {l i : CompId}
    (h : net.counterpart? l = some i) : net.isRole i .input :=
  mem_withRole.mp (mem_inputs_of_counterpart? hkeys h).1

theorem eq_of_counterpart? {legals : List CompId} {partner : CompId → Option CompId}
    (hnodup : (legals.filterMap partner).Nodup) {l l' i : CompId} (hl : l ∈ legals) (hl' : l' ∈ legals)
    (hi : partner l = some i) (hi' : partner l' = some i) : l = l' := by
  rw [nodup_iff_pairwise_ne, pairwise_filterMap] at hnodup
  by_contra hne
  have : Std.Symm fun a a' => ∀ b, partner a = some b → ∀ b', partner a' = some b' → b ≠ b' :=
    ⟨fun a a' h b hb b' hb' => (h b' hb' b hb).symm⟩
  exact hnodup.forall hl hl' hne i hi i hi' rfl

section

variable (h : Registered net pairs net')
include h

theorem Registered.pairedLegal?_of_counterpart? {l i : CompId} (hl : net.isRole l .legal)
    (hi : net.counterpart? l = some i) : net'.pairedLegal? i = some l := by
  have hrole := isRole_of_counterpart? h.keys hi
  obtain ⟨p, hp, -⟩ := Network.isRole_iff.mp hrole
  rw [Network.pairedLegal?, h.proposition?_of_get? (contains_of_isRole hrole), hp, map_some,
    bind_some, paired]
  dsimp only
  have hfind : (net.withRole .legal).find? (fun l => net.counterpart? l == some i) = some l := by
    cases hf : (net.withRole .legal).find? (fun l => net.counterpart? l == some i) with
    | none =>
      have hnone := find?_eq_none.mp hf l (mem_withRole.mpr hl)
      simp [hi] at hnone
    | some l' =>
      have hl' : net.counterpart? l' = some i := by simpa using find?_some hf
      exact congrArg some (eq_of_counterpart? h.partners (mem_of_find?_eq_some hf)
        (mem_withRole.mpr hl) hl' hi)
  rw [hfind]
  rfl

theorem Registered.withInit_of_get? {k : Component}
    (hk : net.get? c = some k) : net'.get? c = some (net.recast pairs c k) := by
  rw [h.get? c, withInit, if_neg, hk]
  · rfl
  rintro ⟨-, rfl⟩
  rw [get?_capacity] at hk
  cases hk

theorem Registered.kind?_of_mem {x : CompId × CompId} (hx : x ∈ pairs) :
    net'.kind? x.1 = some (.transition (some x.2)) := by
  obtain ⟨k, hk, -⟩ := map_eq_some_iff.mp (h.drives x hx).2.1
  have hlookup : pairs.lookup x.1 = some x.2 := (lookup_eq_some_iff_mem h.nodup).mpr hx
  rw [Network.kind?, h.withInit_of_get? hk, map_some, recast, driving, hlookup]
  rfl

theorem Registered.mem_of_transition (hu : net.Unrecorded)
    (ht : net'.op? c = some .transition) : c ∈ pairs.map (·.1) := by
  by_contra hnot
  have hlookup := lookup_eq_none_iff_not_mem.mpr hnot
  have hkind : ∀ k : Component, (net.recast pairs c k).op = .transition → k.op = .transition := by
    intro k hop
    rw [recast, driving, hlookup, Component.op, Component.mapProposition] at hop
    dsimp only [Option.elim] at hop
    split at hop
    · cases hop
    · exact hop
  by_cases hc : net.contains c
  · obtain ⟨k, hk⟩ := contains_iff.mp hc
    rw [op?_of_get? (h.withInit_of_get? hk), Option.some.injEq] at ht
    have hop := hkind k ht
    refine hnot (h.idle c ?_)
    cases hkind : k.kind <;> simp [Component.op, Kind.op, hkind] at hop
    have hkd := congrArg (Option.map Component.kind) hk
    rw [Option.map_some, hkind] at hkd
    exact hu.transition c _ hkd ▸ hkd
  · rw [Bool.not_eq_true, ← get?_eq_none_iff] at hc
    rw [Network.op?, h.get? c, withInit, hc] at ht
    split at ht
    · have hop := hkind _ (Option.some.inj ht)
      cases hop
    · cases ht

theorem Registered.bases_eq : net'.bases = pairs.map (·.2) := by
  rw [h.driven]
  have hb := congrArg Network.bases h.parts
  exact hb

theorem Registered.transitions_eq : net'.transitions = pairs.map (·.1) := by
  have ht := congrArg Network.transitions h.parts
  exact ht

theorem Registered.getElem?_players {r : Nat} {p : Player} (hp : net'.players[r]? = some p) :
    ∃ name, p = net.playerFor r name := by
  rw [h.players r] at hp
  obtain ⟨name, -, rfl⟩ := map_eq_some_iff.mp hp
  exact ⟨name, rfl⟩

theorem Registered.mem_legals (hu : net.Unrecorded) {l : CompId} :
    l ∈ net'.legals ↔ net.isRole l .legal ∧ (net.counterpart? l).isSome := by
  rw [Network.legals, mem_flatMap]
  constructor
  · rintro ⟨p, hp, hl⟩
    obtain ⟨r, hr⟩ := getElem?_of_mem hp
    obtain ⟨name, rfl⟩ := h.getElem?_players hr
    obtain ⟨hmem, hsome⟩ := mem_filter.mp hl
    rw [Bool.and_eq_true] at hsome
    exact ⟨mem_withRole.mp hmem, hsome.2⟩
  · rintro ⟨hrole, hsome⟩
    obtain ⟨p, hp, hlegal⟩ := Network.isRole_iff.mp hrole
    obtain ⟨r, hr, hlt⟩ := hu.player l p hp (.inl hlegal)
    have hplayer := h.players r
    rw [getElem?_eq_getElem hlt] at hplayer
    refine ⟨_, mem_of_getElem? hplayer, mem_filter.mpr ⟨mem_withRole.mpr hrole, ?_⟩⟩
    rw [Bool.and_eq_true]
    refine ⟨?_, hsome⟩
    rw [playerAt, hp, bind_some, hr]
    exact beq_self_eq_true r

theorem Registered.isRole_of_mem_goals {g : CompId} (hg : g ∈ net'.goals) : net.isRole g .goal := by
  rw [Network.goals, mem_flatMap] at hg
  obtain ⟨p, hp, hg⟩ := hg
  obtain ⟨r, hr⟩ := getElem?_of_mem hp
  obtain ⟨name, rfl⟩ := h.getElem?_players hr
  exact mem_withRole.mp (mem_filter.mp hg).1

end

end Registered

/-! ## Cutting transitions from their bases -/

def severed (transitions bases : List CompId) (c : CompId) (k : Component) : Component :=
  { k with
    inputs := if c ∈ bases then [] else k.inputs
    outputs := if c ∈ transitions then [] else k.outputs }

structure Severed (net : Network) (pairs : List (CompId × CompId)) (net' : Network) : Prop where
  parts : net'.parts = net.parts
  capacity : net'.capacity = net.capacity
  get? : ∀ c, net'.get? c = (net.get? c).map (severed (pairs.map (·.1)) (pairs.map (·.2)) c)
  ends : ∀ x ∈ pairs, net.outputsOf x.1 = [x.2] ∧ net.inputsOf x.2 = [x.1]

section Severed

variable {net net' : Network} {pairs : List (CompId × CompId)} {t b c : CompId}

theorem severed_of_not_mem {ts bs : List CompId} (ht : c ∉ ts) (hb : c ∉ bs) (k : Component) :
    severed ts bs c k = k := by rw [severed, if_neg hb, if_neg ht]

theorem cutTransition_ensures (h : Severed net pairs net') (ht : t ∉ pairs.map (·.1))
    (hb : b ∉ pairs.map (·.2)) (htb : t ∉ pairs.map (·.2)) (hbt : b ∉ pairs.map (·.1)) (hne : t ≠ b)
    (hkind : net.kind? t = some (.transition (some b))) :
    (net'.cutTransition t b).Ensures (Severed net (pairs ++ [(t, b)])) := by
  have hsame : ∀ c, c ∉ pairs.map (·.1) → c ∉ pairs.map (·.2) → net'.get? c = net.get? c := by
    intro c hc hc'
    rw [h.get? c]
    cases net.get? c with
    | none => rfl
    | some k => exact congrArg some (severed_of_not_mem hc hc' k)
  unfold cutTransition
  refine .bind (fun k hk => get?_of_get hk) fun kt hkt => ?_
  split
  · exact .bind (P := fun _ => False) .throw fun _ h => h.elim
  next hout =>
  refine .bind (fun k hk => get?_of_get hk) fun kb hkb => ?_
  split
  · exact .bind (P := fun _ => False) .throw fun _ h => h.elim
  next hin =>
  refine .pure ?_
  rw [ne_eq, not_not] at hout hin
  rw [hsame t ht htb] at hkt
  rw [hsame b hbt hb] at hkb
  refine ⟨h.parts, ?_, fun c => ?_, fun x hx => ?_⟩
  · rw [capacity_modify, capacity_modify, capacity_modify]
    exact h.capacity
  · simp only [map_append, map_cons, map_nil, get?_modify]
    by_cases hct : c = t
    · subst hct
      have hkt' := hkt
      rw [Network.kind?, hkt, map_some, Option.some.injEq] at hkind
      rw [if_pos rfl, if_neg hne, if_pos rfl, hsame c ht htb, hkt]
      simp only [map_some, severed, mem_append, mem_singleton, htb, hne, or_self,
        or_true, if_true, if_false]
      congr 1
      rw [← hkind]
    by_cases hcb : c = b
    · subst hcb
      rw [if_neg hct, if_pos rfl, if_neg hct, hsame c hbt hb, hkb]
      simp only [map_some, severed, mem_append, mem_singleton, hbt, hct, or_self,
        or_true, if_true, if_false]
    rw [if_neg hct, if_neg hcb, if_neg hct, h.get? c]
    cases net.get? c with
    | none => rfl
    | some k =>
      simp only [map_some, severed, mem_append, mem_singleton, hct, hcb, or_false]
  · rcases mem_append.mp hx with hx | hx
    · exact h.ends x hx
    · rw [mem_singleton.mp hx]
      exact ⟨by rw [outputsOf_of_get? hkt, hout], by rw [inputsOf_of_get? hkb, hin]⟩

theorem not_mem_take_of_getElem? {α : Type} {l : List α} (h : l.Nodup) {n : Nat} {a : α}
    (ha : l[n]? = some a) : a ∉ l.take n := by
  intro hmem
  obtain ⟨hn, rfl⟩ := List.getElem?_eq_some_iff.mp ha
  obtain ⟨i, hi, heq⟩ := getElem_of_mem hmem
  rw [getElem_take] at heq
  have hin := (List.Nodup.getElem_inj_iff h).mp heq
  rw [length_take] at hi
  omega

theorem cutTransitions_ensures (ht : net.transitions = pairs.map (·.1))
    (hb : net.bases = pairs.map (·.2)) (htnodup : (pairs.map (·.1)).Nodup)
    (hbnodup : (pairs.map (·.2)).Nodup) (hapart : ∀ x ∈ pairs, ∀ y ∈ pairs, x.1 ≠ y.2)
    (hkind : ∀ x ∈ pairs, net.kind? x.1 = some (.transition (some x.2))) :
    net.cutTransitions.Ensures (Severed net pairs) := by
  have hstart : Severed net (pairs.take 0) net := by
    refine ⟨rfl, rfl, fun c => ?_, forall_mem_nil _⟩
    cases net.get? c with
    | none => rfl
    | some k => exact congrArg some (severed_of_not_mem not_mem_nil not_mem_nil k).symm
  unfold cutTransitions
  refine .mono (Checked.partly.foldlM (fun rest (s : Network) =>
    ∃ n, rest = net.transitions.zipIdx.drop n ∧ Severed net (pairs.take n) s)
    (fun x rest s hs => ?_) net.transitions.zipIdx net ⟨0, rfl, hstart⟩) fun s hs => ?_
  · obtain ⟨n, hrest, hs⟩ := hs
    have hn : n < net.transitions.zipIdx.length := by
      by_contra hge
      rw [drop_eq_nil_of_le (Nat.le_of_not_lt hge)] at hrest
      cases hrest
    rw [drop_eq_getElem_cons hn, getElem_zipIdx, Nat.zero_add] at hrest
    obtain ⟨rfl, rfl⟩ := List.cons.inj hrest
    have hlen : n < pairs.length := by
      rw [length_zipIdx, ht, length_map] at hn
      exact hn
    have hbases : s.bases = pairs.map (·.2) := (field_of_parts Network.bases hs.parts).trans hb
    have hpartner : partner s.bases n = .ok (pairs[n]).2 := by
      rw [partner, hbases, getElem?_map, getElem?_eq_getElem hlen]
      rfl
    have hx : pairs[n] ∈ pairs := getElem_mem hlen
    have htn : ∀ h : n < net.transitions.length, net.transitions[n] = (pairs[n]).1 := fun h => by
      simp only [ht, getElem_map]
    dsimp only
    rw [hpartner, htn]
    refine .mono (cutTransition_ensures hs ?_ ?_ ?_ ?_ (hapart _ hx _ hx) (hkind _ hx)) fun s' hs' =>
      ⟨n + 1, rfl, ?_⟩
    · rw [map_take]
      apply not_mem_take_of_getElem? htnodup
      rw [getElem?_map, getElem?_eq_getElem hlen]
      rfl
    · rw [map_take]
      apply not_mem_take_of_getElem? hbnodup
      rw [getElem?_map, getElem?_eq_getElem hlen]
      rfl
    · intro hmem
      obtain ⟨y, hy, hyx⟩ := mem_map.mp hmem
      exact hapart _ hx y (mem_of_mem_take hy) hyx.symm
    · intro hmem
      obtain ⟨y, hy, hyx⟩ := mem_map.mp hmem
      exact hapart y (mem_of_mem_take hy) _ hx hyx
    · rw [take_succ_eq_append_getElem hlen]
      exact hs'
  · obtain ⟨n, hrest, hs⟩ := hs
    have hlen : pairs.length ≤ n := by
      have h := congrArg List.length hrest
      rw [length_nil, length_drop, length_zipIdx, ht, length_map] at h
      omega
    rwa [take_of_length_le hlen] at hs

section

variable (h : Severed net pairs net') (c : CompId)
include h

theorem Severed.kind? : net'.kind? c = net.kind? c := by
  rw [Network.kind?, Network.kind?, h.get? c, Option.map_map]
  rfl

theorem Severed.inputsOf : net'.inputsOf c = if c ∈ pairs.map (·.2) then [] else net.inputsOf c := by
  rw [Network.inputsOf, Network.inputsOf, h.get? c]
  cases net.get? c with
  | none => exact (ite_self _).symm
  | some k => rfl

theorem Severed.outputsOf : net'.outputsOf c = if c ∈ pairs.map (·.1) then [] else net.outputsOf c := by
  rw [Network.outputsOf, Network.outputsOf, h.get? c]
  cases net.get? c with
  | none => exact (ite_self _).symm
  | some k => rfl

theorem Severed.proposition? : net'.proposition? c = net.proposition? c := by
  exact proposition?_of_kind? (h.kind? c)

theorem Severed.isRole (role : PropRole) : net'.isRole c role = net.isRole c role := by
  rw [Bool.eq_iff_iff, Network.isRole_iff, Network.isRole_iff, h.proposition? c]

end

theorem Severed.balanced (h : Severed net pairs net') (hb : net.Balanced) : net'.Balanced := by
  intro a b
  have hab := hb a b
  rw [edgesOut, edgesIn] at hab ⊢
  rw [h.outputsOf, h.inputsOf]
  by_cases ha : a ∈ pairs.map (·.1)
  · rw [if_pos ha, count_nil]
    split
    · rfl
    next hbase =>
    -- a transition feeds its base only
    obtain ⟨x, hx, rfl⟩ := mem_map.mp ha
    rw [← hab, (h.ends x hx).1, count_eq_zero.mpr]
    intro hmem
    exact hbase (mem_map.mpr ⟨x, hx, (mem_singleton.mp hmem).symm⟩)
  · rw [if_neg ha, hab]
    split
    · next hbase =>
      obtain ⟨x, hx, rfl⟩ := mem_map.mp hbase
      rw [(h.ends x hx).2, count_nil, count_eq_zero.mpr]
      intro hmem
      exact ha (mem_map.mpr ⟨x, hx, (mem_singleton.mp hmem).symm⟩)
    · rfl

section

variable (h : Registered net pairs net') {cut : Network} (hcut : Severed net' pairs cut)
include h hcut

/-- Cutting leaves roles alone, and recording makes at most a new init. -/
theorem Registered.isRole_cut {c : CompId} {role : PropRole} (hl : role ≠ .legal) (ho : role ≠ .other)
    (hi : role ≠ .init) : cut.isRole c role = true ↔ net.isRole c role := by
  rw [hcut.isRole, h.isRole_iff hl ho, or_iff_left fun hnew => hi hnew.1]

theorem Registered.pairedInput?_cut (hu : net.Unrecorded) {l i : CompId} :
    cut.pairedInput? l = some i ↔ net.isRole l .legal ∧ net.counterpart? l = some i := by
  rw [pairedInput?_eq, hcut.proposition?, ← pairedInput?_eq]
  exact h.pairedInput?_iff hu

theorem Registered.inputs_cut : cut.inputs = net.withRole .input := by
  refine (field_of_parts Network.inputs hcut.parts).trans ?_
  have hi := congrArg Network.inputs h.parts
  exact hi

theorem Registered.isRole_init_cut {i : CompId} (hi : cut.init = some i) : cut.isRole i .init := by
  rw [field_of_parts Network.init hcut.parts] at hi
  obtain ⟨i', hi', hor⟩ := h.init
  rw [hi] at hi'
  cases hi'
  rw [hcut.isRole, h.isRole_iff (by decide) (by decide)]
  rcases hor with hlist | ⟨hnone, rfl⟩
  · refine .inl (mem_withRole.mp ?_)
    rw [hlist]
    exact mem_singleton_self i
  · exact .inr ⟨rfl, hnone, rfl⟩

theorem Registered.paired_cut (hu : net.Unrecorded) {l i : CompId} (hp : cut.pairedInput? l = some i) :
    l ∈ cut.legals ∧ i ∈ cut.inputs ∧ cut.pairedLegal? i = some l := by
  obtain ⟨hl, hi⟩ := (h.pairedInput?_cut hcut hu).mp hp
  refine ⟨?_, ?_, ?_⟩
  · rw [field_of_parts Network.legals hcut.parts, h.mem_legals hu]
    exact ⟨hl, by rw [hi]; rfl⟩
  · rw [h.inputs_cut hcut]
    exact mem_withRole.mpr (isRole_of_counterpart? h.keys hi)
  · rw [pairedLegal?, hcut.proposition?, ← pairedLegal?]
    exact h.pairedLegal?_of_counterpart? hl hi

/-- Recording gives every part to a component that fits it, once transitions are cut from their bases. -/
theorem Registered.cast (hu : net.Unrecorded) (hinputs : ∀ c, net'.inputsOf c = net.inputsOf c) :
    cut.Cast := by
  have hbases : cut.bases = pairs.map (·.2) :=
    (field_of_parts Network.bases hcut.parts).trans h.bases_eq
  have htransitions : cut.transitions = pairs.map (·.1) :=
    (field_of_parts Network.transitions hcut.parts).trans h.transitions_eq
  constructor
  case base =>
    intro b hb
    refine ⟨?_, by rw [hcut.inputsOf, if_pos (hbases ▸ hb)]⟩
    rw [hbases, h.driven] at hb
    exact (h.isRole_cut hcut (by decide) (by decide) (by decide)).mpr (mem_withRole.mp hb)
  case bases_nodup =>
    rw [hbases, h.driven]
    exact nodup_withRole net .base
  case driven =>
    rw [hbases, htransitions, forall₂_map_left_iff, forall₂_map_right_iff, forall₂_same]
    intro x hx
    rw [hcut.kind?]
    exact h.kind?_of_mem hx
  case transition =>
    intro t ht
    rw [hcut.outputsOf, if_pos]
    refine h.mem_of_transition hu ?_
    obtain ⟨k, hk, hop⟩ := map_eq_some_iff.mp ht
    have hkind := hcut.kind? t
    rw [Network.kind?, hk, map_some] at hkind
    rw [op?_of_kind? hkind.symm]
    exact congrArg some hop
  case input =>
    intro i hi
    have hi' := (h.isRole_cut hcut (by decide) (by decide) (by decide)).mp hi
    rw [hcut.inputsOf]
    split
    · rfl
    · rw [hinputs, h.undriven i (mem_withRole.mpr hi')]
  case inputs =>
    intro i hi
    rw [h.inputs_cut hcut] at hi
    exact (h.isRole_cut hcut (by decide) (by decide) (by decide)).mpr (mem_withRole.mp hi)
  case terminal =>
    rw [field_of_parts Network.terminal hcut.parts]
    refine (h.isRole_cut hcut (by decide) (by decide) (by decide)).mpr (mem_withRole.mp ?_)
    rw [h.terminal]
    exact mem_singleton_self _
  case init => exact fun i hi => h.isRole_init_cut hcut hi
  case legal =>
    intro l hl
    rw [field_of_parts Network.legals hcut.parts, h.mem_legals hu] at hl
    obtain ⟨i, hi⟩ := isSome_iff_exists.mp hl.2
    refine ⟨?_, i, (h.pairedInput?_cut hcut hu).mpr ⟨hl.1, hi⟩⟩
    rw [hcut.isRole]
    exact h.isRole_of_paired hl.1 hi
  case goal =>
    intro g hg
    rw [field_of_parts Network.goals hcut.parts] at hg
    exact (h.isRole_cut hcut (by decide) (by decide) (by decide)).mpr (h.isRole_of_mem_goals hg)
  case paired => exact fun l i hp => h.paired_cut hcut hu hp

end

end Severed

end Network

/-! ## The network of a listing -/

namespace Listing

open Network

def op? (l : Listing) (c : CompId) : Option Op := (l.row? c).map (·.op)

def ListsBase (l : Listing) (c : CompId) : Prop :=
  ∃ r text, l.row? c = some r ∧ r.op = .proposition ∧ r.label = some (.base, text)

def Feeds (l : Listing) (a b : CompId) : Prop :=
  a ∈ l.inputsOf b ∧ ¬ (l.op? a = some .transition ∧ l.ListsBase b)

/-- There is no way round in circles, unless it leads from a transition to a base. -/
def Acyclic (l : Listing) : Prop := ∀ c, ¬ Relation.TransGen l.Feeds c c

section Placed

variable {l : Listing} {flat : Network} {c : CompId}

theorem kind?_fitted (net : Network) (c : CompId) :
    (net.mapComponents Component.fitThresholds).kind? c = net.kind? c := by
  rw [Network.kind?, Network.kind?, get?_mapComponents]
  cases net.get? c with
  | none => rfl
  | some k => exact congrArg some k.fitThresholds_keeps.2.2.1

theorem Placed.row_of_kind? (h : Placed l.roles l.components.toList flat) {kind : Kind}
    (hk : flat.kind? c = some kind) : ∃ r, l.row? c = some r ∧ kindOf l.roles r = .ok kind := by
  cases hr : l.row? c with
  | none =>
    rw [Network.kind?, h.get?_of_row?_none hr] at hk
    cases hk
  | some r =>
    obtain ⟨kind', hkind, hget⟩ := h.get?_of_row? hr
    rw [Network.kind?, hget] at hk
    cases hk
    exact ⟨r, rfl, hkind⟩

theorem Placed.plain (h : Placed l.roles l.components.toList flat) {p : Proposition}
    (hp : flat.proposition? c = some p) : ∃ r part text, l.row? c = some r ∧ r.op = .proposition ∧
      r.label = some (part, text) ∧ Plain l.roles part p := by
  obtain ⟨r, hr, hkind⟩ := h.row_of_kind? (kind?_of_proposition? hp)
  obtain ⟨hop, -, hplain⟩ := kindOf_plain hkind
  obtain ⟨part, text, hlabel, hplain⟩ := hplain p rfl
  exact ⟨r, part, text, hr, hop.symm, hlabel, hplain⟩

theorem proposition?_fitted (net : Network) (c : CompId) :
    (net.mapComponents Component.fitThresholds).proposition? c = net.proposition? c :=
  proposition?_of_kind? (kind?_fitted net c)

theorem Placed.unrecorded (h : Placed l.roles l.components.toList flat) :
    (flat.mapComponents Component.fitThresholds).Unrecorded := by
  have hparts : flat.parts = Network.parts { roles := l.roles } := h.parts
  have hroles := field_of_parts Network.roles hparts
  refine ⟨fun c p hp => ?_, fun c p hp hrole => ?_, fun c b hk => ?_⟩
  · rw [proposition?_fitted] at hp
    obtain ⟨r, part, text, -, -, -, hplain⟩ := h.plain hp
    exact ⟨hplain.pairedInput, hplain.pairedLegal⟩
  · rw [proposition?_fitted] at hp
    obtain ⟨r, part, text, -, -, -, hplain⟩ := h.plain hp
    change ∃ r, p.player = some r ∧ r < flat.roles.length
    rw [hroles]
    rw [hplain.role] at hrole
    exact hplain.player (.inr hrole)
  · rw [kind?_fitted] at hk
    obtain ⟨r, -, hkind⟩ := h.row_of_kind? hk
    exact (kindOf_plain hkind).2.1 b rfl

end Placed

section Built

variable {l : Listing} {flat net cut : Network} {pairs : List (CompId × CompId)} {c : CompId}

theorem recast_keeps {net₀ : Network} (h : Registered net₀ pairs net) {k : Component}
    (hk : net₀.withInit c = some k) : ∃ kind, kind.op = k.op ∧ net₀.recast pairs c k = { k with kind } := by
  refine ⟨(net₀.recast pairs c k).kind, ?_, ?_⟩
  · have hdriving : (driving pairs c k).op = k.op := by
      refine (Network.driving_keeps fun b hl => ?_).1
      obtain ⟨k₀, hk₀, hop⟩ := map_eq_some_iff.mp (h.op?_of_lookup hl)
      rw [withInit, if_neg, hk₀] at hk
      · cases hk
        exact hop
      rintro ⟨-, hcap⟩
      rw [hcap, get?_capacity] at hk₀
      cases hk₀
    rw [← hdriving]
    change ((driving pairs c k).mapProposition _).op = _
    rw [Component.mapProposition]
    split
    · next p hp => rw [Component.op, Component.op, hp]; rfl
    · rfl
  · rw [recast, Component.mapProposition]
    split
    · rfl
    · rfl

section

variable (h : Built l flat pairs net)
include h

theorem Built.component (hcut : Severed net pairs cut) {k' : Component}
    (hk' : cut.get? c = some k') : ∃ k kind, kind.op = k.op ∧
      k' = severed (pairs.map (·.1)) (pairs.map (·.2)) c { k.fitThresholds with kind } ∧
      ((∃ r kind₀, l.row? c = some r ∧ kindOf l.roles r = .ok kind₀ ∧ k = r.place kind₀) ∨
        l.row? c = none ∧ k = .new ownInit 0) := by
  rw [hcut.get? c] at hk'
  obtain ⟨k₁, hk₁, rfl⟩ := map_eq_some_iff.mp hk'
  rw [h.recorded.get? c] at hk₁
  obtain ⟨k₂, hk₂, rfl⟩ := map_eq_some_iff.mp hk₁
  obtain ⟨kind, hop, hrecast⟩ := recast_keeps h.recorded hk₂
  have hfit : ∀ k : Component, k.fitThresholds.op = k.op := fun k =>
    congrArg Kind.op k.fitThresholds_keeps.2.2.1
  rw [hrecast]
  rw [withInit, get?_mapComponents] at hk₂
  split at hk₂
  · next hnew =>
    cases hk₂
    refine ⟨.new ownInit 0, kind, hop, rfl, .inr ⟨?_, rfl⟩⟩
    cases hr : l.row? c with
    | none => rfl
    | some r =>
      obtain ⟨kind₀, -, hget⟩ := h.placed.get?_of_row? hr
      have hlt := lt_capacity_of_get? hget
      have hcap : c = flat.capacity := by
        rw [hnew.2, Network.capacity, mapComponents, Array.size_map]
        rfl
      exact absurd hcap (Nat.ne_of_lt hlt)
  · obtain ⟨k, hk, rfl⟩ := map_eq_some_iff.mp hk₂
    refine ⟨k, kind, hop.trans (hfit k), rfl, .inl ?_⟩
    cases hr : l.row? c with
    | none =>
      rw [h.placed.get?_of_row?_none hr] at hk
      cases hk
    | some r =>
      obtain ⟨kind₀, hkind, hget⟩ := h.placed.get?_of_row? hr
      rw [hget] at hk
      cases hk
      exact ⟨r, kind₀, rfl, hkind, rfl⟩

theorem Built.cut_ensures : net.cutTransitions.Ensures (Severed net pairs) := by
  refine cutTransitions_ensures h.recorded.transitions_eq h.recorded.bases_eq h.recorded.nodup ?_
    (fun x hx y hy hxy => ?_) fun x hx => h.recorded.kind?_of_mem hx
  · rw [h.recorded.driven]
    exact nodup_withRole _ _
  have hbase : y.2 ∈ pairs.map (·.2) := mem_map.mpr ⟨y, hy, rfl⟩
  rw [h.recorded.driven, mem_withRole] at hbase
  have hop := (h.recorded.drives x hx).2.1
  rw [hxy, op?_of_isRole hbase] at hop
  cases hop

/-- A cycle in the cut network is one in the listing. -/
theorem Built.acyclic (hcut : Severed net pairs cut) (ha : l.Acyclic) : cut.Acyclic := by
  have hfeeds : ∀ a b, cut.Feeds a b → l.Feeds a b := by
    intro a b hab
    rw [Network.Feeds, hcut.inputsOf] at hab
    split at hab
    · cases hab
    next hb =>
    rw [h.inputsOf] at hab
    refine ⟨hab, fun hcutoff => hb ?_⟩
    obtain ⟨-, r, text, hr, hop, hlabel⟩ := hcutoff
    rw [h.recorded.driven, mem_withRole, Network.isRole_iff, proposition?_fitted]
    obtain ⟨kind, hkind, hget⟩ := h.placed.get?_of_row? hr
    obtain ⟨hopk, -, hplain⟩ := kindOf_plain hkind
    cases kind with
    | proposition p =>
      obtain ⟨part, text', hlabel', hp⟩ := hplain p rfl
      rw [hlabel] at hlabel'
      cases hlabel'
      exact ⟨p, by rw [Network.proposition?, hget]; rfl, hp.role⟩
    | _ => rw [hop] at hopk; cases hopk
  exact fun c hc => ha c (Relation.TransGen.mono hfeeds _ _ hc)

/-- The compiler starts from a network in which all is in order. -/
theorem Built.formed (hcut : Severed net pairs cut) (hb : l.Balanced)
    (ha : l.Acyclic) : cut.Formed ∧ cut.Fitted := by
  have hcast : cut.Cast := h.recorded.cast hcut h.placed.unrecorded fun c => h.recorded.inputsOf c
  have hshaped : ∀ c k', cut.get? c = some k' → k'.Shaped := by
    intro c k' hk'
    obtain ⟨k, kind, hop, rfl, hrow⟩ := h.component hcut hk'
    have hk : k.Shaped := by
      rcases hrow with ⟨r, kind₀, -, -, rfl⟩ | ⟨-, rfl⟩
      · exact Component.shaped_new kind₀ r.count.toInt
      · exact Component.shaped_new ownInit 0
    have hfit := hk.of_face k.fitThresholds_keeps.2.2.2
    have hopfit : k.fitThresholds.op = k.op := congrArg Kind.op k.fitThresholds_keeps.2.2.1
    rw [Component.Shaped, hopfit] at hfit
    rw [Component.Shaped]
    change k.fitThresholds.sign = (if kind.op = .not then -1 else 1) ∧
      (kind.op ≠ .and → k.fitThresholds.reqTrue = 1 ∧ k.fitThresholds.reqFalse = 0)
    rw [hop]
    exact hfit
  refine ⟨⟨hcast, hcut.balanced ?_, h.acyclic hcut ha, hshaped⟩, fun c k' hk' hand => ?_⟩
  · intro a b
    rw [edgesOut, edgesIn, h.outputsOf, h.inputsOf]
    exact hb a b
  obtain ⟨k, kind, hop, rfl, hrow⟩ := h.component hcut hk'
  change kind.op = .and at hand
  have hkand : k.op = .and := hop ▸ hand
  -- only propositions lose inputs
  have hbase : c ∉ pairs.map (·.2) := by
    intro hmem
    rw [← h.recorded.bases_eq, ← field_of_parts Network.bases hcut.parts] at hmem
    have hopc := op?_of_isRole (hcast.base c hmem).1
    rw [op?_of_get? hk', Option.some.injEq] at hopc
    exact absurd (hand.symm.trans hopc) (by decide)
  rw [Component.fitThresholds_of_and hkand]
  dsimp only [severed]
  rw [if_neg hbase]
  exact ⟨rfl, rfl⟩

end

end Built

end Listing

end GameNet
