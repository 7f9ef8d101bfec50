import GameNet.Proofs.Listing.Meaning

/-!
The lists of a network that has been built: who stands where in them.

Bases and transitions go together place by place, and so do the legals and the inputs of each player.
-/

namespace GameNet

open List Option

/-! ## Moves and goal values -/

namespace Listing

structure Worded (part : PropRole) (p : Proposition) : Prop where
  move : part = .input ∨ part = .legal → ∃ m, p.move = some m
  goal : part = .goal → ∃ v ≤ 100, p.goal = some v

theorem goalOf_le {t : Term} {v : Nat} (h : goalOf t = .ok v) : v ≤ 100 := by
  unfold goalOf at h
  split at h
  · cases h
  split at h
  · cases h
  next hv =>
  cases h
  exact Nat.le_of_not_lt hv

theorem classify_worded {roles : List String} {part : PropRole} {term : Term} {p : Proposition}
    (h : classify roles part term = .ok p) : Worded part p := by
  cases part with
  | base | init | terminal | other => exact ⟨by simp, by simp⟩
  | input | legal =>
    unfold classify at h
    dsimp only at h
    split at h
    · obtain ⟨i, -, h⟩ := exists_of_bind_eq_ok h
      cases h
      exact ⟨fun _ => ⟨_, rfl⟩, by simp⟩
    · cases h
  | goal =>
    unfold classify at h
    dsimp only at h
    split at h
    · obtain ⟨i, -, h⟩ := exists_of_bind_eq_ok h
      obtain ⟨v, hv, h⟩ := exists_of_bind_eq_ok h
      cases h
      exact ⟨by simp, fun _ => ⟨v, goalOf_le hv, rfl⟩⟩
    · cases h

theorem kindOf_worded {roles : List String} {r : RawComponent} {p : Proposition}
    (h : kindOf roles r = .ok (.proposition p)) : Worded p.role p := by
  unfold kindOf at h
  split at h
  · obtain ⟨term, -, h⟩ := exists_of_bind_eq_ok h
    split at h
    · next q hq =>
      cases h
      rw [(classify_plain hq).role]
      exact classify_worded hq
    · cases h
  all_goals cases h

section Placed

variable {l : Listing} {flat : Network} {c : CompId} {role : PropRole}

theorem Placed.proposition? (h : Placed l.roles l.components.toList flat) (c : CompId) :
    flat.proposition? c = l.proposition? c := by
  rw [Network.proposition?, h.get? c]
  rfl

theorem Placed.worded (h : Placed l.roles l.components.toList flat) {p : Proposition}
    (hp : flat.proposition? c = some p) : Worded p.role p := by
  obtain ⟨r, -, hkind⟩ := h.row_of_kind? (Network.kind?_of_proposition? hp)
  exact kindOf_worded hkind

theorem mem_withRole : c ∈ l.withRole role ↔ ∃ p, l.proposition? c = some p ∧ p.role = role := by
  rw [withRole, mem_filter, ids, CompId.mem_sortedSet]
  constructor
  · rintro ⟨-, h⟩
    obtain ⟨p, hp, hrole⟩ := (Option.any_eq_true ..).mp h
    exact ⟨p, hp, beq_iff_eq.mp hrole⟩
  rintro ⟨p, hp, rfl⟩
  refine ⟨?_, by rw [hp]; exact beq_self_eq_true p.role⟩
  obtain ⟨k, hk, -⟩ := bind_eq_some_iff.mp hp
  obtain ⟨r, hr, -⟩ := bind_eq_some_iff.mp hk
  obtain ⟨hid, hmem⟩ := id_of_rowIn? hr
  exact mem_map.mpr ⟨r, hmem, hid⟩

end Placed

end Listing

/-! ## Places -/

namespace Network

def listedAt (net : Network) (view : Player → List CompId) (r k : Nat) : Option CompId :=
  (net.players[r]?).bind fun p => (view p)[k]?

def OnlyAt (net : Network) (view : Player → List CompId) (c : CompId) (r k : Nat) : Prop :=
  ∀ r' k', net.listedAt view r' k' = some c ↔ r' = r ∧ k' = k

def player? (net : Network) (c : CompId) : Option Nat := (net.proposition? c).bind (·.player)

def goal? (net : Network) (c : CompId) : Option Nat := (net.proposition? c).bind (·.goal)

section Places

variable {net : Network} {view : Player → List CompId} {c : CompId} {r : Nat}

theorem mem_of_listedAt {k : Nat} (h : net.listedAt view r k = some c) : c ∈ net.players.flatMap view := by
  obtain ⟨p, hp, hk⟩ := bind_eq_some_iff.mp h
  exact mem_flatMap.mpr ⟨p, mem_of_getElem? hp, mem_of_getElem? hk⟩

theorem exists_onlyAt (view : Player → List CompId) {p : Player} (hp : net.players[r]? = some p)
    (hc : c ∈ view p) (hnodup : (view p).Nodup)
    (hown : ∀ r' q, net.players[r']? = some q → c ∈ view q → r' = r) :
    ∃ k, (view p)[k]? = some c ∧ net.OnlyAt view c r k := by
  obtain ⟨k, hk⟩ := getElem?_of_mem hc
  refine ⟨k, hk, fun r' k' => ⟨fun h => ?_, ?_⟩⟩
  · obtain ⟨q, hq, hk'⟩ := bind_eq_some_iff.mp h
    obtain rfl := hown r' q hq (mem_of_getElem? hk')
    obtain rfl : p = q := Option.some.inj (hp.symm.trans hq)
    obtain ⟨hlt, -⟩ := List.getElem?_eq_some_iff.mp hk'
    exact ⟨rfl, (getElem?_inj hlt hnodup).mp (hk'.trans hk.symm)⟩
  · rintro ⟨rfl, rfl⟩
    rw [listedAt, hp, bind_some, hk]

theorem getElem?_filterMap_filter {α β : Type} (xs : List α) (p : α → Bool) (f : α → Option β) :
    ∀ k : Nat, ((xs.filter p).filterMap f)[k]? = ((xs.filter fun x => p x && (f x).isSome)[k]?).bind f := by
  induction xs with
  | nil => exact fun _ => rfl
  | cons x xs ih =>
    intro k
    by_cases hp : p x = true
    · cases hf : f x with
      | none =>
        rw [filter_cons_of_pos hp, filterMap_cons_none hf, filter_cons_of_neg (by simp [hf])]
        exact ih k
      | some b =>
        rw [filter_cons_of_pos hp, filterMap_cons_some hf, filter_cons_of_pos (by simp [hp, hf])]
        cases k with
        | zero => exact hf.symm
        | succ k => exact ih k
    · rw [filter_cons_of_neg hp, filter_cons_of_neg (by simp [hp])]
      exact ih k

end Places

/-! ## Indexed networks -/

structure Indexed (l : Listing) (net : Network) : Prop where
  length_eq : net.bases.length = net.transitions.length
  nodup : net.transitions.Nodup
  mem_transitions : ∀ t, t ∈ net.transitions ↔ net.op? t = some .transition
  mem_bases : ∀ b, b ∈ net.bases ↔ net.isRole b .base = true
  drives : ∀ (k : Nat) b t, net.bases[k]? = some b → net.transitions[k]? = some t →
    net.inputsOf b = [t] ∧ (net.inputsOf t).length ≤ 1 ∧ net.kind? t = some (.transition (some b))
  /-- legals and inputs know of each other -/
  paired : ∀ c i, net.pairedInput? c = some i ↔ net.pairedLegal? i = some c
  legal : ∀ c, net.isRole c .legal = true ↔ ∃ i, net.pairedInput? c = some i
  input : ∀ c i, net.pairedInput? c = some i → net.isRole i .input = true ∧
    ∃ move, net.moveKey? c = some move ∧ net.moveKey? i = some move
  legal_at : ∀ c, net.isRole c .legal = true → ∃ r k, net.OnlyAt Player.legals c r k ∧
    net.player? c = some r ∧ net.listedAt Player.inputs r k = net.pairedInput? c
  legal_of_at : ∀ r k c, net.listedAt Player.legals r k = some c → net.isRole c .legal = true
  /-- a listed legal without an input for its move has lost its role -/
  listed : ∀ c ∈ l.withRole .legal, net.isRole c (if ∃ i ∈ l.withRole .input,
    l.moveOf? i = l.moveOf? c then .legal else .other) = true
  goal_at : ∀ g, net.isRole g .goal = true → ∃ r k, net.OnlyAt Player.goals g r k ∧
    net.player? g = some r ∧ ∃ v ≤ 100, net.goal? g = some v
  goal_of_at : ∀ r k g, net.listedAt Player.goals r k = some g → net.isRole g .goal = true
  terminal : ∀ c, net.isRole c .terminal = true ↔ c = net.terminal
  init : ∃ i, net.init = some i ∧ ∀ c, net.isRole c .init = true ↔ c = i

section Registered

variable {net net' : Network} {pairs : List (CompId × CompId)} {c i : CompId}

section

variable (h : Registered net pairs net')
include h

theorem Registered.bind_proposition? {α : Type} (hc : net.contains c) (f : Proposition → Option α)
    (hf : ∀ done partner p, f (paired done partner c p) = f p) :
    (net'.proposition? c).bind f = (net.proposition? c).bind f := by
  rw [h.proposition?_of_get? hc, bind_map]
  exact congrArg _ (funext fun p => hf _ _ p)

theorem Registered.moveKey? (hc : net.contains c) :
    net'.moveKey? c = net.moveKey? c := h.bind_proposition? hc _ fun _ _ _ => rfl

theorem Registered.player? (hc : net.contains c) :
    net'.player? c = net.player? c := h.bind_proposition? hc _ fun _ _ _ => rfl

theorem Registered.goal? (hc : net.contains c) :
    net'.goal? c = net.goal? c := h.bind_proposition? hc _ fun _ _ _ => rfl

/-- An input that knows a legal has been found by it. -/
theorem Registered.counterpart?_of_pairedLegal? (hu : net.Unrecorded) {l : CompId}
    (hl : net'.pairedLegal? i = some l) : net.isRole l .legal ∧ net.counterpart? l = some i := by
  have hget := h.get? i
  obtain ⟨p', hp', hback⟩ := bind_eq_some_iff.mp hl
  obtain ⟨k', hk', hp'⟩ := bind_eq_some_iff.mp hp'
  rw [hget] at hk'
  obtain ⟨k, hk, rfl⟩ := map_eq_some_iff.mp hk'
  rw [recast, Component.proposition?_mapProposition] at hp'
  obtain ⟨p, hp, rfl⟩ := map_eq_some_iff.mp hp'
  -- before recording it knew of no legal, so the one it knows is the one that found it
  have hnone : p.pairedLegal = none := by
    unfold withInit at hk
    split at hk
    · cases hk
      cases hlookup : pairs.lookup i with
      | none =>
        rw [driving, hlookup] at hp
        exact congrArg Proposition.pairedLegal (Option.some.inj hp).symm
      | some b =>
        rw [driving, hlookup] at hp
        cases hp
    · rw [(h.driving_keeps hk).2, ← Network.proposition?_of_get? hk] at hp
      exact (hu.unpaired i p hp).2
  have hfind : (net.withRole .legal).find? (fun l => net.counterpart? l == some i) = some l := by
    rw [← hback, paired, hnone, or_none]
  have hpartner := find?_some hfind
  exact ⟨mem_withRole.mp (mem_of_find?_eq_some hfind), beq_iff_eq.mp hpartner⟩

theorem Registered.pairedInput?_iff_pairedLegal? (hu : net.Unrecorded)
    {l : CompId} : net'.pairedInput? l = some i ↔ net'.pairedLegal? i = some l := by
  rw [h.pairedInput?_iff hu]
  exact ⟨fun hl => h.pairedLegal?_of_counterpart? hl.1 hl.2, h.counterpart?_of_pairedLegal? hu⟩

theorem Registered.isRole_legal_iff (hu : net.Unrecorded) :
    net'.isRole c .legal ↔ ∃ i, net'.pairedInput? c = some i := by
  constructor
  · intro hlegal
    obtain ⟨p', hp', hrole⟩ := Network.isRole_iff.mp hlegal
    by_cases hc : net.contains c
    · rw [h.proposition?_of_get? hc] at hp'
      obtain ⟨p, hp, rfl⟩ := map_eq_some_iff.mp hp'
      rw [paired] at hrole
      dsimp only at hrole
      split at hrole
      · cases hrole
      next hnot =>
      have hold : net.isRole c .legal := Network.isRole_iff.mpr ⟨p, hp, hrole⟩
      obtain ⟨i, hi⟩ := ne_none_iff_exists'.mp fun hnone => hnot ⟨mem_withRole.mpr hold, hnone⟩
      exact ⟨i, (h.pairedInput?_iff hu).mpr ⟨hold, hi⟩⟩
    · rw [Bool.not_eq_true] at hc
      rw [(h.proposition?_of_none hc hp').2.2.1] at hrole
      cases hrole
  · rintro ⟨i, hi⟩
    obtain ⟨hold, hi⟩ := (h.pairedInput?_iff hu).mp hi
    exact h.isRole_of_paired hold hi

theorem Registered.isRole_other_of_orphan (hl : net.isRole c .legal)
    (hnone : net.counterpart? c = none) : net'.isRole c .other := by
  obtain ⟨p, hp, -⟩ := Network.isRole_iff.mp hl
  refine Network.isRole_iff.mpr ⟨_, by rw [h.proposition?_of_get? (contains_of_isRole hl), hp]; rfl, ?_⟩
  exact if_pos ⟨mem_withRole.mpr hl, hnone⟩

end

/-- The input that a legal finds is the one for the same move of the same player. -/
theorem counterpart?_iff (hkeys : (net.moveTable.map (·.1)).Nodup) {move : MoveKey}
    (hc : net.moveKey? c = some move) :
    net.counterpart? c = some i ↔ net.isRole i .input ∧ net.moveKey? i = some move := by
  obtain ⟨p, hp, hkey⟩ := bind_eq_some_iff.mp hc
  obtain ⟨r, hr, hkey⟩ := bind_eq_some_iff.mp hkey
  obtain ⟨m, hm, rfl⟩ := map_eq_some_iff.mp hkey
  have hlookup : net.counterpart? c = net.moveTable.lookup (r, m) := by
    rw [counterpart?, partner?, hp, bind_some, hm, bind_some, hr, getD_some]
  rw [hlookup, lookup_eq_some_iff_mem hkeys, moveTable, mem_filterMap]
  constructor
  · rintro ⟨j, hj, hpair⟩
    obtain ⟨key, hkey, hpair⟩ := map_eq_some_iff.mp hpair
    cases hpair
    exact ⟨mem_withRole.mp hj, hkey⟩
  · rintro ⟨hrole, hkey⟩
    exact ⟨i, mem_withRole.mpr hrole, by rw [hkey]; rfl⟩

theorem playerAt_of_player? {r : Nat} (h : net.player? c = some r) : net.playerAt c = r := by
  rw [playerAt, ← player?, h]
  rfl

theorem Registered.legal_at (h : Registered net pairs net') {r : Nat} (hl : net.isRole c .legal)
    (hi : net.counterpart? c = some i) (hr : net.player? c = some r) (hlt : r < net.roles.length) :
    ∃ k, net'.OnlyAt Player.legals c r k ∧ net'.listedAt Player.inputs r k = some i := by
  have hp := h.players r
  rw [getElem?_eq_getElem hlt, map_some] at hp
  have hplayer := playerAt_of_player? hr
  have hmem : c ∈ (net.playerFor r net.roles[r]).legals :=
    mem_filter.mpr ⟨mem_withRole.mpr hl, by simp [hplayer, hi]⟩
  obtain ⟨k, hk, honly⟩ := exists_onlyAt Player.legals hp hmem
    ((nodup_withRole net .legal).filter _) fun r' q hq hc => by
      obtain ⟨name, rfl⟩ := h.getElem?_players hq
      have hown := (mem_filter.mp hc).2
      rw [Bool.and_eq_true, beq_iff_eq] at hown
      exact hown.1.symm.trans hplayer
  refine ⟨k, honly, ?_⟩
  have hinput := getElem?_filterMap_filter (net.withRole .legal) (net.playerAt · == r) net.counterpart? k
  rw [listedAt, hp, bind_some, playerFor, hinput]
  exact (congrArg (·.bind net.counterpart?) hk).trans hi

theorem Registered.goal_at (h : Registered net pairs net') {r : Nat} (hg : net.isRole c .goal)
    (hr : net.player? c = some r) (hlt : r < net.roles.length) : ∃ k, net'.OnlyAt Player.goals c r k := by
  have hp := h.players r
  rw [getElem?_eq_getElem hlt, map_some] at hp
  have hmem : c ∈ (net.playerFor r net.roles[r]).goals := by
    refine mem_filter.mpr ⟨mem_withRole.mpr hg, ?_⟩
    change (net.player? c == some r) = true
    rw [hr]
    exact beq_self_eq_true _
  obtain ⟨k, -, honly⟩ := exists_onlyAt Player.goals hp hmem
    ((nodup_withRole net .goal).filter _) fun r' q hq hc => by
      obtain ⟨name, rfl⟩ := h.getElem?_players hq
      have hown : (net.player? c == some r') = true := (mem_filter.mp hc).2
      rw [hr, beq_iff_eq] at hown
      exact (Option.some.inj hown).symm
  exact ⟨k, honly⟩

end Registered

end Network

namespace Listing

open Network

section Built

variable {l : Listing} {flat net : Network} {pairs : List (CompId × CompId)} {c i : CompId} {role : PropRole}
variable (h : Built l flat pairs net)
include h

theorem Built.proposition? (c : CompId) :
    (flat.mapComponents Component.fitThresholds).proposition? c = l.proposition? c :=
  (proposition?_fitted flat c).trans (h.placed.proposition? c)

theorem Built.isRole_iff_mem :
    (flat.mapComponents Component.fitThresholds).isRole c role ↔ c ∈ l.withRole role := by
  rw [Network.isRole_iff, h.proposition?, mem_withRole]

theorem Built.moveKey? (c : CompId) :
    (flat.mapComponents Component.fitThresholds).moveKey? c = l.moveOf? c := by
  rw [Network.moveKey?, h.proposition?]
  rfl

theorem Built.exists_player (hc : c ∈ l.withRole role) (hpart : role = .legal ∨ role = .goal) :
    ∃ p r, l.proposition? c = some p ∧ p.player = some r ∧ r < l.roles.length ∧ Worded role p ∧
      (flat.mapComponents Component.fitThresholds).player? c = some r := by
  obtain ⟨p, hp, rfl⟩ := mem_withRole.mp hc
  have hflat := (h.placed.proposition? c).trans hp
  obtain ⟨_, part, _, -, -, -, hplain⟩ := h.placed.plain hflat
  rw [hplain.role] at hpart
  obtain ⟨r, hr, hlt⟩ := hplain.player (.inr hpart)
  refine ⟨p, r, hp, hr, hlt, h.placed.worded hflat, ?_⟩
  rw [Network.player?, h.proposition?, hp]
  exact hr

theorem Built.exists_move (hc : c ∈ l.withRole .legal) :
    ∃ r m, r < l.roles.length ∧ l.moveOf? c = some (r, m) ∧
      (flat.mapComponents Component.fitThresholds).player? c = some r := by
  obtain ⟨p, r, hp, hr, hlt, hworded, hplayer⟩ := h.exists_player hc (.inl rfl)
  obtain ⟨m, hm⟩ := hworded.move (.inr rfl)
  refine ⟨r, m, hlt, ?_, hplayer⟩
  rw [moveOf?, hp, bind_some, hr, bind_some, hm]
  rfl

theorem Built.exists_score (hc : c ∈ l.withRole .goal) :
    ∃ r, r < l.roles.length ∧ (flat.mapComponents Component.fitThresholds).player? c = some r ∧
      ∃ v ≤ 100, (flat.mapComponents Component.fitThresholds).goal? c = some v := by
  obtain ⟨p, r, hp, -, hlt, hworded, hplayer⟩ := h.exists_player hc (.inr rfl)
  obtain ⟨v, hle, hv⟩ := hworded.goal rfl
  refine ⟨r, hlt, hplayer, v, hle, ?_⟩
  rw [Network.goal?, h.proposition?, hp]
  exact hv

theorem Built.roles : (flat.mapComponents Component.fitThresholds).roles = l.roles := by
  have hparts := congrArg Network.roles h.placed.parts
  exact hparts

theorem Built.counterpart?_iff (hc : c ∈ l.withRole .legal) :
    (flat.mapComponents Component.fitThresholds).counterpart? c = some i ↔
      i ∈ l.withRole .input ∧ l.moveOf? i = l.moveOf? c := by
  obtain ⟨r, m, -, hmove, -⟩ := h.exists_move hc
  rw [Network.counterpart?_iff h.recorded.keys ((h.moveKey? c).trans hmove), h.isRole_iff_mem, h.moveKey?,
    hmove]

theorem Built.drives {k : Nat} {b t : CompId} (hb : net.bases[k]? = some b)
    (ht : net.transitions[k]? = some t) :
    net.inputsOf b = [t] ∧ (net.inputsOf t).length ≤ 1 ∧ net.kind? t = some (.transition (some b)) := by
  rw [h.recorded.bases_eq, getElem?_map] at hb
  rw [h.recorded.transitions_eq, getElem?_map] at ht
  obtain ⟨x, hx, rfl⟩ := map_eq_some_iff.mp hb
  obtain ⟨y, hy, rfl⟩ := map_eq_some_iff.mp ht
  obtain rfl : x = y := Option.some.inj (hx.symm.trans hy)
  have hmem := mem_of_getElem? hx
  obtain ⟨hin, -, hlen⟩ := h.recorded.drives x hmem
  rw [h.recorded.inputsOf, h.recorded.inputsOf]
  exact ⟨hin, hlen, h.recorded.kind?_of_mem hmem⟩

theorem Built.mem_transitions {t : CompId} : t ∈ net.transitions ↔ net.op? t = some .transition := by
  rw [h.recorded.transitions_eq]
  constructor
  · intro ht
    obtain ⟨x, hx, rfl⟩ := mem_map.mp ht
    have hkind := h.recorded.kind?_of_mem hx
    obtain ⟨k, hk, hkind⟩ := map_eq_some_iff.mp hkind
    rw [op?_of_get? hk, Component.op, hkind]
    rfl
  · exact h.recorded.mem_of_transition h.placed.unrecorded

theorem Built.mem_bases {b : CompId} : b ∈ net.bases ↔ net.isRole b .base := by
  rw [h.recorded.bases_eq, h.recorded.driven, Network.mem_withRole,
    h.recorded.isRole_iff (by decide) (by decide)]
  exact (or_iff_left fun hinit => by cases hinit.1).symm

theorem Built.isRole_listed (hc : c ∈ l.withRole .legal) :
    net.isRole c (if ∃ i ∈ l.withRole .input, l.moveOf? i = l.moveOf? c then .legal else .other) = true := by
  have hrole := h.isRole_iff_mem.mpr hc
  split
  · next hex =>
    obtain ⟨i, hi, hmove⟩ := hex
    exact h.recorded.isRole_of_paired hrole ((h.counterpart?_iff hc).mpr ⟨hi, hmove⟩)
  · next hno =>
    refine h.recorded.isRole_other_of_orphan hrole (eq_none_iff_forall_ne_some.mpr fun i hi => hno ?_)
    exact ⟨i, (h.counterpart?_iff hc).mp hi⟩

theorem Built.paired (hi : net.pairedInput? c = some i) :
    c ∈ l.withRole .legal ∧ (flat.mapComponents Component.fitThresholds).counterpart? c = some i := by
  obtain ⟨hrole, hi⟩ := (h.recorded.pairedInput?_iff h.placed.unrecorded).mp hi
  exact ⟨h.isRole_iff_mem.mp hrole, hi⟩

theorem Built.isRole_input (hi : net.pairedInput? c = some i) :
    net.isRole i .input ∧ ∃ move, net.moveKey? c = some move ∧ net.moveKey? i = some move := by
  obtain ⟨hc, hcounter⟩ := h.paired hi
  obtain ⟨r, m, -, hmove, -⟩ := h.exists_move hc
  obtain ⟨hinput, hsame⟩ := (h.counterpart?_iff hc).mp hcounter
  have hrole := h.isRole_iff_mem.mpr hinput
  refine ⟨(h.recorded.isRole_iff (by decide) (by decide)).mpr (.inl hrole), (r, m), ?_, ?_⟩
  · rw [h.recorded.moveKey? (contains_of_isRole (h.isRole_iff_mem.mpr hc)), h.moveKey?, hmove]
  · rw [h.recorded.moveKey? (contains_of_isRole hrole), h.moveKey?, hsame, hmove]

theorem Built.legal_at (hc : net.isRole c .legal) :
    ∃ r k, net.OnlyAt Player.legals c r k ∧ net.player? c = some r ∧
      net.listedAt Player.inputs r k = net.pairedInput? c := by
  obtain ⟨i, hi⟩ := (h.recorded.isRole_legal_iff h.placed.unrecorded).mp hc
  obtain ⟨hlisted, hcounter⟩ := h.paired hi
  obtain ⟨r, m, hlt, -, hplayer⟩ := h.exists_move hlisted
  have hrole := h.isRole_iff_mem.mpr hlisted
  obtain ⟨k, honly, hinput⟩ := h.recorded.legal_at hrole hcounter hplayer (h.roles ▸ hlt)
  exact ⟨r, k, honly, (h.recorded.player? (contains_of_isRole hrole)).trans hplayer, hinput.trans hi.symm⟩

theorem Built.goal_at (hc : net.isRole c .goal) :
    ∃ r k, net.OnlyAt Player.goals c r k ∧ net.player? c = some r ∧ ∃ v ≤ 100, net.goal? c = some v := by
  have hrole := ((h.recorded.isRole_iff (by decide) (by decide)).mp hc).resolve_right
    fun hinit => by cases hinit.1
  obtain ⟨r, hlt, hplayer, v, hle, hv⟩ := h.exists_score (h.isRole_iff_mem.mp hrole)
  obtain ⟨k, honly⟩ := h.recorded.goal_at hrole hplayer (h.roles ▸ hlt)
  have hlive := contains_of_isRole hrole
  exact ⟨r, k, honly, (h.recorded.player? hlive).trans hplayer, v, hle, (h.recorded.goal? hlive).trans hv⟩

theorem Built.legal_of_at {r k : Nat}
    (hc : net.listedAt Player.legals r k = some c) : net.isRole c .legal := by
  obtain ⟨hrole, hsome⟩ := (h.recorded.mem_legals h.placed.unrecorded).mp (mem_of_listedAt hc)
  obtain ⟨i, hi⟩ := isSome_iff_exists.mp hsome
  exact h.recorded.isRole_of_paired hrole hi

theorem Built.goal_of_at {r k : Nat} (hc : net.listedAt Player.goals r k = some c) : net.isRole c .goal := by
  have hrole := h.recorded.isRole_of_mem_goals (mem_of_listedAt hc)
  exact (h.recorded.isRole_iff (by decide) (by decide)).mpr (.inl hrole)

theorem Built.isRole_terminal : net.isRole c .terminal ↔ c = net.terminal := by
  rw [h.recorded.isRole_iff (by decide) (by decide), or_iff_left (fun hinit => by cases hinit.1),
    ← Network.mem_withRole, h.recorded.terminal, mem_singleton]

theorem Built.isRole_init : ∃ i, net.init = some i ∧ ∀ c, net.isRole c .init ↔ c = i := by
  obtain ⟨i, hi, hlisted⟩ := h.recorded.init
  refine ⟨i, hi, fun c => ?_⟩
  rw [h.recorded.isRole_iff (by decide) (by decide), ← Network.mem_withRole]
  rcases hlisted with hone | ⟨hnone, hcap⟩
  · rw [hone, mem_singleton]
    exact or_iff_left fun hinit => by cases hinit.2.1
  · rw [hnone, hcap]
    simp

end Built

theorem indexed_of_build (l : Listing) {net : Network} (h : l.build.listen.1 = .ok net) :
    net.Indexed l := by
  obtain ⟨flat, pairs, hbuilt⟩ := build_ensures l _ net h
  exact
    { length_eq := by
        rw [hbuilt.recorded.bases_eq, hbuilt.recorded.transitions_eq, List.length_map, List.length_map]
      nodup := by
        rw [hbuilt.recorded.transitions_eq]
        exact hbuilt.recorded.nodup
      mem_transitions := fun _ => hbuilt.mem_transitions
      mem_bases := fun _ => hbuilt.mem_bases
      drives := fun _ _ _ hb ht => hbuilt.drives hb ht
      paired := fun _ _ => hbuilt.recorded.pairedInput?_iff_pairedLegal? hbuilt.placed.unrecorded
      legal := fun _ => hbuilt.recorded.isRole_legal_iff hbuilt.placed.unrecorded
      input := fun _ _ => hbuilt.isRole_input
      legal_at := fun _ => hbuilt.legal_at
      legal_of_at := fun _ _ _ => hbuilt.legal_of_at
      listed := fun _ => hbuilt.isRole_listed
      goal_at := fun _ => hbuilt.goal_at
      goal_of_at := fun _ _ _ => hbuilt.goal_of_at
      terminal := fun _ => hbuilt.isRole_terminal
      init := hbuilt.isRole_init }

/-- Two players with the same moves. One legal has no input, one input has no legal, the second player's
name is listed twice, and there is no init. -/
def standoff : Listing where
  roles := ["left", "right", "right"]
  components := #[
    { id := 0, count := 0, op := .transition, inputs := [1], outputs := [1] },
    { id := 1, count := 0, op := .proposition, inputs := [0], outputs := [0, 5, 6, 7, 8, 9]
      label := some (.base, "(true tense)") },
    { id := 2, count := 0, op := .proposition, label := some (.input, "(does left draw)") },
    { id := 3, count := 0, op := .proposition, label := some (.input, "(does right draw)") },
    { id := 4, count := 0, op := .proposition, label := some (.input, "(does right wait)") },
    { id := 5, count := 0, op := .proposition, inputs := [1], label := some (.legal, "(legal right draw)") },
    { id := 6, count := 0, op := .proposition, inputs := [1], label := some (.legal, "(legal left draw)") },
    { id := 7, count := 0, op := .proposition, inputs := [1], label := some (.legal, "(legal left wait)") },
    { id := 8, count := 0, op := .proposition, inputs := [1], label := some (.terminal, "terminal") },
    { id := 9, count := 0, op := .proposition, inputs := [1], label := some (.goal, "(goal right 100)") }]

theorem indexed_of_build_standoff : ∃ net, standoff.build.listen.1 = .ok net ∧ net.Indexed standoff ∧
    net.isRole 7 .other = true := by
  have hok : standoff.build.listen.1.isOk = true := by decide +kernel
  have horphan : 7 ∈ standoff.withRole .legal ∧ ¬ ∃ i ∈ standoff.withRole .input,
      standoff.moveOf? i = standoff.moveOf? 7 := by decide +kernel
  obtain ⟨net, hnet⟩ := Checked.exists_of_isOk hok
  have hindexed := indexed_of_build standoff hnet
  have hlisted := hindexed.listed 7 horphan.1
  rw [if_neg horphan.2] at hlisted
  exact ⟨net, hnet, hindexed, hlisted⟩

end Listing

end GameNet
