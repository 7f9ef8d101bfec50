import GameNet.Listing.Build
import GameNet.Proofs.Eval.Position

/-!
Recording: which component plays which part in the game.

Recording changes nothing but the kinds of components.
-/

namespace GameNet

open List Option

/-! ## Views of propositions -/

namespace Network

def kind? (net : Network) (c : CompId) : Option Kind := (net.get? c).map (·.kind)

def proposition? (net : Network) (c : CompId) : Option Proposition :=
  (net.get? c).bind (·.proposition?)

def moveKey? (net : Network) (c : CompId) : Option MoveKey :=
  (net.proposition? c).bind fun p => p.player.bind fun r => p.move.map (r, ·)

def pairedLegal? (net : Network) (i : CompId) : Option CompId :=
  (net.proposition? i).bind (·.pairedLegal)

section Views

variable {net : Network} {c : CompId} {k : Component} {role : PropRole}

theorem proposition?_of_get? (hk : net.get? c = some k) : net.proposition? c = k.proposition? := by
  rw [proposition?, hk]
  rfl

theorem isRole_of_get? (hk : net.get? c = some k) : net.isRole c role = k.hasRole role := by
  rw [isRole, hk]
  rfl

theorem isRole_iff : net.isRole c role ↔ ∃ p, net.proposition? c = some p ∧ p.role = role := by
  cases hk : net.get? c with
  | none => simp [isRole, proposition?, hk]
  | some k => simp [isRole, proposition?, hk, Component.hasRole, Component.role?]

theorem pairedInput?_eq (net : Network) (l : CompId) :
    net.pairedInput? l = (net.proposition? l).bind (·.pairedInput) := by
  rw [pairedInput?, proposition?, bind_assoc]

theorem mem_withRole : c ∈ net.withRole role ↔ net.isRole c role := by
  simp only [withRole, List.mem_map, List.mem_filter, Prod.exists, mem_components]
  constructor
  · rintro ⟨_, k, ⟨hk, hr⟩, rfl⟩
    rw [isRole_of_get? hk]
    exact hr
  intro h
  cases hk : net.get? c with
  | none => simp [isRole, hk] at h
  | some k =>
    rw [isRole_of_get? hk] at h
    exact ⟨c, k, ⟨hk, h⟩, rfl⟩

theorem pairwise_withRole (net : Network) (role : PropRole) : (net.withRole role).Pairwise (· < ·) := by
  have hsub : (net.withRole role).Sublist net.ids := filter_sublist.map _
  exact net.pairwise_ids.sublist hsub

theorem withRole_eq (net : Network) (role : PropRole) :
    net.withRole role = (List.range net.capacity).filter (net.isRole · role) := by
  refine (net.pairwise_withRole role).eq_of_mem_iff (pairwise_lt_range.sublist filter_sublist) fun c => ?_
  rw [mem_withRole, mem_filter, mem_range]
  constructor
  · intro h
    cases hk : net.get? c with
    | none => simp [isRole, hk] at h
    | some k => exact ⟨lt_capacity_of_get? hk, h⟩
  · exact fun h => h.2

theorem nodup_withRole (net : Network) (role : PropRole) : (net.withRole role).Nodup := by
  rw [withRole_eq]
  exact nodup_range.filter _

end Views

/-! ## Tables -/

section Tables

variable {α β : Type} [BEq α] [LawfulBEq α] {table : List (α × β)} {key : α}

theorem lookup_eq_none_iff_not_mem : table.lookup key = none ↔ key ∉ table.map (·.1) := by
  rw [lookup_eq_none_iff, List.mem_map]
  constructor
  · rintro h ⟨x, hx, rfl⟩
    simpa using h x hx
  intro h x hx
  rw [bne_iff_ne]
  rintro rfl
  exact h ⟨x, hx, rfl⟩

theorem lookup_eq_some_iff_mem (h : (table.map (·.1)).Nodup) {value : β} :
    table.lookup key = some value ↔ (key, value) ∈ table := by
  induction table with
  | nil => simp
  | cons x table ih =>
    obtain ⟨k, v⟩ := x
    rw [map_cons, nodup_cons] at h
    rw [lookup_cons, mem_cons]
    by_cases hk : key = k
    · subst hk
      have hnot : (key, value) ∉ table := fun hm => h.1 (mem_map.mpr ⟨_, hm, rfl⟩)
      simp only [BEq.rfl, hnot, or_false, Prod.mk.injEq, true_and, Option.some.injEq]
      exact eq_comm
    · have hbeq : (key == k) = false := beq_eq_false_iff_ne.mpr hk
      simp only [hbeq, Prod.mk.injEq, hk, false_and, false_or]
      exact ih h.2

end Tables

/-! ## Bases and transitions -/

def driving (pairs : List (CompId × CompId)) (c : CompId) (k : Component) : Component :=
  { k with kind := (pairs.lookup c).elim k.kind fun b => .transition (some b) }

structure Driven (net : Network) (pairs : List (CompId × CompId)) (net' : Network) : Prop where
  parts : net'.parts = net.parts
  capacity : net'.capacity = net.capacity
  get? : ∀ c, net'.get? c = (net.get? c).map (driving pairs c)
  nodup : (pairs.map (·.1)).Nodup
  drives : ∀ x ∈ pairs, net.inputsOf x.2 = [x.1] ∧ net.op? x.1 = some .transition ∧
    (net.inputsOf x.1).length ≤ 1

section Bases

variable {net net' : Network} {pairs : List (CompId × CompId)}

/-- Only transitions are told of bases, so nothing else about a component changes. -/
theorem driving_keeps {c : CompId} {k : Component} (h : ∀ b, pairs.lookup c = some b → k.op = .transition) :
    (driving pairs c k).op = k.op ∧ (driving pairs c k).proposition? = k.proposition? := by
  cases hl : pairs.lookup c with
  | none => simp [driving, hl]
  | some b =>
    have hop := h b hl
    cases hkind : k.kind <;> simp [Component.op, Kind.op, hkind] at hop
    simp [driving, hl, Component.op, Kind.op, Component.proposition?, hkind]

section

variable (h : Driven net pairs net')
include h

theorem Driven.inputsOf (c : CompId) : net'.inputsOf c = net.inputsOf c := by
  rw [Network.inputsOf, h.get? c, Network.inputsOf]
  cases net.get? c <;> rfl

theorem Driven.proposition? (c : CompId) : net'.proposition? c = net.proposition? c := by
  rw [Network.proposition?, h.get? c, Network.proposition?]
  cases hk : net.get? c with
  | none => rfl
  | some k =>
    refine (driving_keeps fun b hl => ?_).2
    have hop := (h.drives _ ((lookup_eq_some_iff_mem h.nodup).mp hl)).2.1
    rwa [op?_of_get? hk, Option.some.injEq] at hop

theorem Driven.withRole (role : PropRole) : net'.withRole role = net.withRole role := by
  rw [withRole_eq, withRole_eq, h.capacity]
  refine filter_congr fun c _ => ?_
  rw [Bool.eq_iff_iff, isRole_iff, isRole_iff, h.proposition? c]

theorem recordBase_ensures {b : CompId} :
    (net'.recordBase b).Ensures fun r => Driven net (pairs ++ [(r.1, b)]) r.2 := by
  intro r hr
  unfold recordBase at hr
  obtain ⟨kb, hkb, hr⟩ := exists_of_bind_eq_ok hr
  split at hr
  case h_2 => cases hr
  next t hin =>
  obtain ⟨op, hop, hr⟩ := exists_of_bind_eq_ok hr
  dsimp only at hr
  by_cases hnot : op ≠ .transition
  · rw [if_pos hnot] at hr
    cases hr
  rw [if_neg hnot] at hr
  obtain ⟨k, hk, hr⟩ := exists_of_bind_eq_ok hr
  by_cases hlen : 1 < k.inputs.length
  · rw [if_pos hlen] at hr
    cases hr
  rw [if_neg hlen] at hr
  by_cases hdriven : k.drivenBase?.isSome = true
  · rw [if_pos hdriven] at hr
    cases hr
  rw [if_neg hdriven] at hr
  cases hr
  have hk' := get?_of_get hk
  obtain ⟨k₀, hk₀, rfl⟩ := map_eq_some_iff.mp ((h.get? t).symm.trans hk')
  -- the transition has not been told of another base
  have hnone : pairs.lookup t = none := by
    cases hl : pairs.lookup t with
    | none => rfl
    | some b' =>
      rw [driving, hl] at hdriven
      exact absurd rfl hdriven
  have hfront : ∀ c, (pairs ++ [(t, b)]).lookup c = if c = t then some b else pairs.lookup c := by
    intro c
    rw [lookup_append, lookup_cons, lookup_nil]
    by_cases hc : c = t
    · rw [hc, hnone, if_pos rfl, BEq.rfl]
      rfl
    · rw [if_neg hc, beq_eq_false_iff_ne.mpr hc, or_none]
  refine ⟨h.parts, (capacity_modify _ _ _).trans h.capacity, fun c => ?_, ?_, fun x hx => ?_⟩
  · rw [get?_modify, h.get? c]
    unfold driving
    rw [hfront c]
    split
    · cases net.get? c <;> rfl
    · rfl
  · rw [map_append, map_singleton]
    exact List.Nodup.append h.nodup (nodup_singleton t) (disjoint_singleton.mpr (lookup_eq_none_iff_not_mem.mp hnone))
  rcases mem_append.mp hx with hx | hx
  · exact h.drives x hx
  rw [mem_singleton.mp hx]
  refine ⟨?_, ?_, ?_⟩
  · rw [← h.inputsOf, inputsOf_of_get? (get?_of_get hkb), hin]
  · rw [Network.op, hk] at hop
    have hop' : (driving pairs t k₀).op = op := Except.ok.inj hop
    rw [driving, hnone] at hop'
    rw [op?_of_get? hk₀]
    exact congrArg some (hop'.trans (not_not.mp hnot))
  · rw [inputsOf_of_get? hk₀]
    exact Nat.le_of_not_lt hlen

end

/-- All bases, in their order. No transition is left without one. -/
theorem recordBases_ensures (net : Network) (bases : List CompId) : (net.recordBases bases).Ensures fun r =>
      ∃ pairs, Driven net pairs r.2 ∧ pairs.map (·.1) = r.1 ∧ pairs.map (·.2) = bases ∧
        ∀ t, net.kind? t = some (.transition none) → t ∈ pairs.map (·.1) := by
  unfold recordBases
  refine Checked.Ensures.bind (Checked.partly.foldlM
    (fun rest (s : List CompId × Network) => ∃ pairs, Driven net pairs s.2 ∧ pairs.map (·.1) = s.1 ∧
      pairs.map (·.2) ++ rest = bases) (fun b rest s hs => ?_) bases ([], net)
    ⟨[], ⟨rfl, rfl, fun c => ?_, nodup_nil, forall_mem_nil _⟩, rfl, rfl⟩)
    fun s hs => ?_
  · obtain ⟨pairs, hd, h1, h2⟩ := hs
    refine Checked.Ensures.bind (recordBase_ensures hd) fun r hr => .pure ⟨_, hr, ?_, ?_⟩
    · rw [map_append, h1]
      rfl
    · rw [map_append, append_assoc]
      exact h2
  · cases net.get? c <;> rfl
  obtain ⟨pairs, hd, h1, h2⟩ := hs
  dsimp only
  split
  · exact .throw
  next hidle =>
  refine .pure ⟨pairs, hd, h1, by rwa [append_nil] at h2, fun t ht => ?_⟩
  by_contra hnot
  obtain ⟨k, hk, hkind⟩ := map_eq_some_iff.mp ht
  have hmem : (t, driving pairs t k) ∈ s.2.components := by
    rw [mem_components, hd.get? t, hk]
    rfl
  have hkeep : (driving pairs t k).kind = .transition none := by
    rw [driving, lookup_eq_none_iff_not_mem.mpr hnot]
    exact hkind
  have hnone := find?_eq_none.mp hidle _ hmem
  apply hnone
  rw [Component.op, Component.drivenBase?, hkeep]
  rfl

end Bases

end Network

/-! ## Pairs of legals and inputs -/

namespace Component

variable {k : Component} {f g : Proposition → Proposition}

theorem proposition?_mapProposition (f : Proposition → Proposition) (k : Component) :
    (k.mapProposition f).proposition? = k.proposition?.map f := by
  cases hk : k.kind <;> simp only [mapProposition, proposition?, hk, Option.map]

theorem mapProposition_mapProposition (f g : Proposition → Proposition) (k : Component) :
    (k.mapProposition f).mapProposition g = k.mapProposition fun p => g (f p) := by
  cases hk : k.kind <;> simp only [mapProposition, hk]

theorem mapProposition_of_eq (h : ∀ p, k.proposition? = some p → f p = p) : k.mapProposition f = k := by
  cases hk : k.kind with
  | proposition p =>
    have hp := h p (by simp only [proposition?, hk])
    obtain ⟨kind, _, _, _, _, _, _, _⟩ := k
    cases hk
    simp only [mapProposition, hp]
  | _ => simp only [mapProposition, hk]

end Component

def Player.taking (p : Player) (inputs legals : List CompId) : Player :=
  { p with inputs := p.inputs ++ inputs, legals := p.legals ++ legals }

namespace Network

def partner? (net : Network) (table : List (MoveKey × CompId)) (l : CompId) : Option CompId :=
  (net.proposition? l).bind fun p => p.move.bind fun m => table.lookup (p.player.getD 0, m)

def playerAt (net : Network) (c : CompId) : Nat := ((net.proposition? c).bind (·.player)).getD 0

/-- A proposition when these legals have been paired: a legal without a partner loses its role. -/
def paired (done : List CompId) (partner : CompId → Option CompId) (c : CompId) (p : Proposition) :
    Proposition :=
  { p with
    role := if c ∈ done ∧ partner c = none then .other else p.role
    pairedInput := if c ∈ done then (partner c).or p.pairedInput else p.pairedInput
    pairedLegal := (done.find? fun l => partner l == some c).or p.pairedLegal }

structure Paired (net : Network) (players : List Player) (partner : CompId → Option CompId)
    (done : List CompId) (s : Network × List Player) : Prop where
  parts : s.1.parts = net.parts
  capacity : s.1.capacity = net.capacity
  get? : ∀ c, s.1.get? c = (net.get? c).map (·.mapProposition (paired done partner c))
  players : ∀ r, s.2[r]? = (players[r]?).map fun (p : Player) =>
    p.taking ((done.filter (net.playerAt · == r)).filterMap partner)
      (done.filter fun l => net.playerAt l == r && (partner l).isSome)
  nodup : (done.filterMap partner).Nodup

section Legals

variable {net : Network} {players : List Player} {table : List (MoveKey × CompId)}
  {partner : CompId → Option CompId} {done : List CompId} {s : Network × List Player} {l : CompId}

theorem inputsByMove_ensures (net : Network) (inputs : List CompId) :
    (net.inputsByMove inputs).Ensures fun table =>
      table = inputs.filterMap (fun i => (net.moveKey? i).map (·, i)) ∧ (table.map (·.1)).Nodup := by
  refine Checked.Ensures.mono (Checked.partly.foldlM (fun rest table =>
    ∃ done, done ++ rest = inputs ∧ table = done.filterMap (fun i => (net.moveKey? i).map (·, i)) ∧
      (table.map (·.1)).Nodup) (fun i rest table h => ?_) inputs [] ⟨[], rfl, rfl, nodup_nil⟩)
    fun table h => ?_
  · obtain ⟨done, hdone, htable, hnodup⟩ := h
    have hnext : done ++ [i] ++ rest = inputs := by rw [append_assoc]; exact hdone
    split
    · next _ _ p m _ _ _ hi =>
      have hkey : net.moveKey? i = some (p, m) := by
        rw [moveKey?, proposition?, hi]
        rfl
      split
      · exact .throw
      next hfree =>
      have hnone : table.lookup (p, m) = none := not_isSome_iff_eq_none.mp hfree
      refine .pure ⟨done ++ [i], hnext, ?_, ?_⟩
      · rw [filterMap_append, ← htable]
        simp [hkey]
      rw [map_append, map_singleton]
      exact List.Nodup.append hnodup (nodup_singleton _)
        (disjoint_singleton.mpr (lookup_eq_none_iff_not_mem.mp hnone))
    · next hno =>
      have hkey : net.moveKey? i = none := by
        rw [moveKey?, proposition?]
        cases hp : (net.get? i).bind (·.proposition?) with
        | none => rfl
        | some p =>
          obtain ⟨role, term, player, move, goal, pin, plegal⟩ := p
          cases player with
          | none => rfl
          | some r =>
            cases move with
            | none => rfl
            | some m => exact absurd hp (hno role term r m goal pin plegal)
      refine .pure ⟨done ++ [i], hnext, ?_, hnodup⟩
      rw [filterMap_append, ← htable]
      simp [hkey]
  · obtain ⟨done, hdone, htable, hnodup⟩ := h
    rw [append_nil] at hdone
    exact ⟨hdone ▸ htable, hnodup⟩

theorem Paired.proposition? (h : Paired net players partner done s) (c : CompId) :
    s.1.proposition? c = (net.proposition? c).map (paired done partner c) := by
  rw [Network.proposition?, h.get? c, Network.proposition?]
  cases net.get? c with
  | none => rfl
  | some k => exact Component.proposition?_mapProposition _ k

theorem paired_append_of_ne {c : CompId} (hc : c ≠ l) (hl : partner l ≠ some c) :
    paired (done ++ [l]) partner c = paired done partner c := by
  funext p
  have hmem : c ∈ done ++ [l] ↔ c ∈ done := by simp [hc]
  simp only [paired, hmem, find?_append, find?_singleton, beq_iff_eq, hl, if_false, or_none]

theorem filter_append_legal (player : CompId → Nat) (r : Nat) :
    ((done ++ [l]).filter (player · == r)).filterMap partner =
        (done.filter (player · == r)).filterMap partner ++ (if player l = r then (partner l).toList else []) ∧
      ((done ++ [l]).filter fun l => player l == r && (partner l).isSome) =
        (done.filter fun l => player l == r && (partner l).isSome) ++
          (if player l = r ∧ (partner l).isSome = true then [l] else []) := by
  constructor
  · rw [filter_append, filterMap_append]
    by_cases hr : player l = r
    · cases hp : partner l <;> simp [hr, hp]
    · simp [hr]
  · rw [filter_append]
    by_cases hr : player l = r <;> cases hp : partner l <;> simp [hr, hp]

theorem Paired.orphan (h : Paired net players partner done s) (hnone : partner l = none) :
    Paired net players partner (done ++ [l])
      (s.1.modify l (·.mapProposition fun p => { p with role := .other }), s.2) where
  parts := h.parts
  capacity := (capacity_modify _ _ _).trans h.capacity
  get? c := by
    rw [get?_modify, h.get? c]
    by_cases hc : c = l
    · subst hc
      rw [if_pos rfl, Option.map_map]
      congr 1
      funext k
      rw [Function.comp_apply, Component.mapProposition_mapProposition]
      congr 1
      funext p
      simp [paired, hnone]
    · rw [if_neg hc, paired_append_of_ne hc (by rw [hnone]; nofun)]
  players r := by
    rw [h.players r, (filter_append_legal net.playerAt r).1, (filter_append_legal net.playerAt r).2, hnone]
    simp
  nodup := by
    rw [filterMap_append]
    simpa [hnone] using h.nodup

theorem Paired.pair (h : Paired net players partner done s) {i : CompId} (hi : partner l = some i)
    (hfree : (done.find? fun l => partner l == some i) = none) : Paired net players partner (done ++ [l])
      ((s.1.modify i (·.mapProposition fun p => { p with pairedLegal := some l })).modify l
          (·.mapProposition fun p => { p with pairedInput := some i }),
        s.2.modify (net.playerAt l) fun info =>
          { info with inputs := info.inputs ++ [i], legals := info.legals ++ [l] }) where
  parts := h.parts
  capacity := by rw [capacity_modify, capacity_modify, h.capacity]
  get? c := by
    rw [get?_modify, get?_modify, h.get? c]
    have hfind : ((done ++ [l]).find? fun l => partner l == some c) =
        (done.find? fun l => partner l == some c).or (if i = c then some l else none) := by
      rw [find?_append, find?_singleton, hi]
      simp only [beq_iff_eq, Option.some.injEq]
    -- the two updates are one, also where a legal is its own input
    have hmaps : ∀ (b b' : Prop) [Decidable b] [Decidable b'] (f g : Proposition → Proposition)
        (x : Option Component),
        (if b then (if b' then x.map (·.mapProposition f) else x).map (·.mapProposition g)
          else if b' then x.map (·.mapProposition f) else x) =
          x.map (·.mapProposition fun p => (fun p => if b then g p else p) (if b' then f p else p)) := by
      intro b b' _ _ f g x
      cases x with
      | none => simp
      | some k =>
        by_cases hb : b <;> by_cases hb' : b' <;>
          simp only [hb, hb', if_true, if_false, map_some, Component.mapProposition_mapProposition,
            Component.mapProposition_of_eq (f := fun p => p) fun _ _ => rfl]
    rw [hmaps, Option.map_map]
    congr 1
    funext k
    rw [Function.comp_apply, Component.mapProposition_mapProposition]
    congr 1
    funext p
    unfold paired
    rw [hfind]
    by_cases hcl : c = l
    · subst hcl
      by_cases hci : c = i
      · subst hci
        simp [hi, hfree]
      · simp [hi, hci, Ne.symm hci]
    · by_cases hci : c = i
      · subst hci
        simp [hcl, hfree]
      · simp [hcl, hci, Ne.symm hci]
  players r := by
    rw [getElem?_modify, h.players r, (filter_append_legal net.playerAt r).1,
      (filter_append_legal net.playerAt r).2, hi]
    cases players[r]? with
    | none => simp
    | some p =>
      by_cases hr : net.playerAt l = r <;> simp [hr, Player.taking]
  nodup := by
    rw [filterMap_append]
    refine List.Nodup.append h.nodup (by simp [hi]) ?_
    have hnot : i ∉ done.filterMap partner := by
      intro hmem
      obtain ⟨l', hl', hpl⟩ := mem_filterMap.mp hmem
      have := find?_eq_none.mp hfree l' hl'
      simp [hpl] at this
    simpa [hi] using hnot

theorem recordLegal_ensures (h : Paired net players (net.partner? table) done s)
    (hp : ∀ i, net.partner? table l = some i → (net.proposition? i).isSome) :
    (recordLegal table s.1 s.2 l).Ensures (Paired net players (net.partner? table) (done ++ [l])) := by
  unfold recordLegal
  refine .bind (.lift fun k hk => get?_of_get hk) fun k hk => ?_
  have hprop : k.proposition? = (net.proposition? l).map (paired done (net.partner? table) l) := by
    rw [← h.proposition? l, proposition?_of_get? hk]
  cases hq : net.proposition? l with
  | none =>
    rw [hq] at hprop
    rw [hprop]
    have hnone : net.partner? table l = none := by rw [partner?, hq]; rfl
    have hsame : s.1.modify l (·.mapProposition fun p => { p with role := .other }) = s.1 := by
      have hid : s.1.modify l (·.mapProposition fun p => { p with role := .other }) =
          s.1.modify l id := by
        refine modify_congr fun k' hk' => ?_
        cases hk.symm.trans hk'
        refine Component.mapProposition_of_eq fun p hpk => ?_
        rw [hprop] at hpk
        cases hpk
      rw [hid, modify_id]
    have hskip := h.orphan hnone
    rw [hsame] at hskip
    exact .pure hskip
  | some q =>
    rw [hq, map_some] at hprop
    rw [hprop]
    dsimp only [paired]
    have hpartner : net.partner? table l = q.move.bind fun m => table.lookup (q.player.getD 0, m) := by
      rw [partner?, hq]
      rfl
    rw [← hpartner]
    have hplayer : q.player.getD 0 = net.playerAt l := by
      rw [playerAt, hq]
      rfl
    cases hi : net.partner? table l with
    | none => exact .bind (P := fun _ => True) (.tell trivial) fun _ _ => .pure (h.orphan hi)
    | some i =>
      refine .bind (.lift fun ki hki => get?_of_get hki) fun ki hki => ?_
      split
      · exact .throw
      next hnot =>
      refine .pure ?_
      rw [hplayer]
      refine h.pair hi ?_
      obtain ⟨pi, hpi⟩ := isSome_iff_exists.mp (hp i hi)
      have hpair := h.proposition? i
      rw [proposition?_of_get? hki, hpi] at hpair
      rw [hpair, not_isSome_iff_eq_none] at hnot
      exact (or_eq_none_iff.mp hnot).1

theorem recordLegals_ensures (net : Network) (players : List Player) (table : List (MoveKey × CompId))
    (legals : List CompId) (hp : ∀ l i, net.partner? table l = some i → (net.proposition? i).isSome) :
    (legals.foldlM (fun s l => recordLegal table s.1 s.2 l) (net, players)).Ensures
      (Paired net players (net.partner? table) legals) := by
  have hstart : Paired net players (net.partner? table) [] (net, players) := by
    refine ⟨rfl, rfl, fun c => ?_, fun r => ?_, nodup_nil⟩
    · have hid : ∀ k : Component, k.mapProposition (paired [] (net.partner? table) c) = k := fun k =>
        Component.mapProposition_of_eq fun p _ => by simp [paired]
      simp [hid]
    · simp [Player.taking]
  refine Observed.Ensures.mono (Observed.partly.foldlM
    (fun rest s => ∃ done, done ++ rest = legals ∧ Paired net players (net.partner? table) done s)
    (fun l rest s hs => ?_) legals (net, players) ⟨[], rfl, hstart⟩) fun s hs => ?_
  · obtain ⟨done, hdone, hs⟩ := hs
    refine Observed.Ensures.mono (recordLegal_ensures hs (hp l)) fun s' hs' => ?_
    exact ⟨done ++ [l], by rw [append_assoc]; exact hdone, hs'⟩
  · obtain ⟨done, hdone, hs⟩ := hs
    rw [append_nil] at hdone
    exact hdone ▸ hs

end Legals

/-! ## All parts -/

def scoring (p : Player) (goals : List CompId) : Player := { p with goals := p.goals ++ goals }

theorem getElem?_recordGoals (net : Network) (goals : List CompId) (r : Nat) :
    ∀ players : List Player, (goals.foldl net.recordGoal players)[r]? = (players[r]?).map
      (scoring · (goals.filter fun g => (net.proposition? g).bind (·.player) == some r)) := by
  induction goals with
  | nil =>
    intro players
    cases h : players[r]? <;> simp [h, scoring]
  | cons g goals ih =>
    intro players
    rw [foldl_cons, ih, filter_cons]
    unfold recordGoal
    rw [← proposition?]
    cases hp : (net.proposition? g).bind (·.player) with
    | none => simp
    | some q =>
      rw [getElem?_modify]
      by_cases hq : q = r
      · subst hq
        cases players[q]? <;> simp [scoring]
      · cases players[r]? <;> simp [hq]

theorem recordTerminal_ensures (net : Network) : net.recordTerminal.Ensures fun net' =>
    net' = { net with terminal := net'.terminal } ∧ net.withRole .terminal = [net'.terminal] := by
  unfold recordTerminal
  split
  · next t ht => exact .pure ⟨rfl, ht⟩
  · exact .throw
  · exact .throw

def ownInit : Kind := .proposition { role := .init, term := .atom "init" }

def withInit (net : Network) (c : CompId) : Option Component :=
  if net.withRole .init = [] ∧ c = net.capacity then some (.new ownInit 0) else net.get? c

theorem recordInit_ensures (net : Network) : net.recordInit.Ensures fun net' =>
    ∃ i, net'.parts = { net.parts with init := some i } ∧ (∀ c, net'.get? c = net.withInit c) ∧
      (net.withRole .init = [i] ∨ net.withRole .init = [] ∧ i = net.capacity) := by
  unfold recordInit
  split
  · next i hi => exact .pure ⟨i, rfl, fun c => (if_neg (by simp [hi])).symm, .inl hi⟩
  · next hnil =>
    refine .bind (P := fun _ => True) (.tell trivial) fun _ _ => .pure ⟨net.capacity, rfl, ?_, .inr ⟨hnil, rfl⟩⟩
    intro c
    have hget : net.withInit c = if c = net.capacity then some (.new ownInit 0) else net.get? c := by
      simp [withInit, hnil]
    rw [hget]
    exact get?_add net ownInit 0 c
  · exact .throw

def moveTable (net : Network) : List (MoveKey × CompId) :=
  (net.withRole .input).filterMap fun i => (net.moveKey? i).map (·, i)

def counterpart? (net : Network) (l : CompId) : Option CompId := net.partner? net.moveTable l

def recast (net : Network) (pairs : List (CompId × CompId)) (c : CompId) (k : Component) : Component :=
  (driving pairs c k).mapProposition (paired (net.withRole .legal) net.counterpart? c)

def playerFor (net : Network) (r : Nat) (name : String) : Player where
  name
  inputs := ((net.withRole .legal).filter (net.playerAt · == r)).filterMap net.counterpart?
  legals := (net.withRole .legal).filter fun l => net.playerAt l == r && (net.counterpart? l).isSome
  goals := (net.withRole .goal).filter fun g => (net.proposition? g).bind (·.player) == some r

def partsFor (net : Network) (pairs : List (CompId × CompId)) (players : List Player)
    (terminal : CompId) (init : Option CompId) : Network where
  roles := net.roles
  bases := net.withRole .base
  inputs := net.withRole .input
  transitions := pairs.map (·.1)
  players
  terminal
  init

structure Registered (net : Network) (pairs : List (CompId × CompId)) (net' : Network) : Prop where
  parts : net'.parts = net.partsFor pairs net'.players net'.terminal net'.init
  get? : ∀ c, net'.get? c = (net.withInit c).map (net.recast pairs c)
  nodup : (pairs.map (·.1)).Nodup
  driven : pairs.map (·.2) = net.withRole .base
  drives : ∀ x ∈ pairs, net.inputsOf x.2 = [x.1] ∧ net.op? x.1 = some .transition ∧
    (net.inputsOf x.1).length ≤ 1
  undriven : ∀ i ∈ net.withRole .input, net.inputsOf i = []
  terminal : net.withRole .terminal = [net'.terminal]
  init : ∃ i, net'.init = some i ∧
    (net.withRole .init = [i] ∨ net.withRole .init = [] ∧ i = net.capacity)
  keys : (net.moveTable.map (·.1)).Nodup
  partners : ((net.withRole .legal).filterMap net.counterpart?).Nodup
  players : ∀ r, net'.players[r]? = (net.roles[r]?).map (net.playerFor r)
  idle : ∀ t, net.kind? t = some (.transition none) → t ∈ pairs.map (·.1)

section Record

variable {net net' : Network}

theorem bind_withInit {α : Type} (net : Network) (c : CompId) (f : Proposition → Option α)
    (hf : f { role := .init, term := .atom "init" } = none) :
    ((net.withInit c).bind (·.proposition?)).bind f = (net.proposition? c).bind f := by
  unfold withInit
  split
  · next h =>
    rw [proposition?, h.2, get?_capacity]
    exact hf
  · rfl

theorem mem_inputs_of_counterpart? (hkeys : (net.moveTable.map (·.1)).Nodup) {l i : CompId}
    (h : net.counterpart? l = some i) : i ∈ net.withRole .input ∧ (net.moveKey? i).isSome := by
  rw [counterpart?, partner?] at h
  obtain ⟨p, -, h⟩ := bind_eq_some_iff.mp h
  obtain ⟨m, -, h⟩ := bind_eq_some_iff.mp h
  obtain ⟨i', hi', hpair⟩ := mem_filterMap.mp ((lookup_eq_some_iff_mem hkeys).mp h)
  obtain ⟨key, hkey, hpair⟩ := map_eq_some_iff.mp hpair
  cases hpair
  exact ⟨hi', by rw [hkey]; rfl⟩

/-- The network when its legals are about to be paired. -/
structure Opened (net : Network) (pairs : List (CompId × CompId)) (terminal i : CompId) (net' : Network) :
    Prop where
  parts : net'.parts = { roles := net.roles, terminal, init := some i }
  get? : ∀ c, net'.get? c = (net.withInit c).map (driving pairs c)
  bind : ∀ {α : Type} (c : CompId) (f : Proposition → Option α),
    f { role := .init, term := .atom "init" } = none →
      (net'.proposition? c).bind f = (net.proposition? c).bind f

section

variable {pairs : List (CompId × CompId)} {t i : CompId}

theorem Driven.opened {net₁ net₂ net₃ : Network} (h : Driven net pairs net₁)
    (hparts : net.parts = { roles := net.roles }) (h₂ : net₂ = { net₁ with terminal := t })
    (hparts₃ : net₃.parts = { net₂.parts with init := some i })
    (hget₃ : ∀ c, net₃.get? c = net₂.withInit c) : Opened net pairs t i net₃ := by
  have hget₂ : ∀ c, net₂.get? c = net₁.get? c := fun c => by rw [h₂]; rfl
  have hwith₂ : net₂.withRole .init = net.withRole .init := by
    rw [h₂]
    exact h.withRole .init
  have hcap₂ : net₂.capacity = net.capacity := by
    rw [h₂]
    exact h.capacity
  refine ⟨?_, fun c => ?_, fun c f hf => ?_⟩
  · have hparts₂ : net₂.parts = { net₁.parts with terminal := t } := by
      rw [h₂]
      rfl
    rw [hparts₃, hparts₂, h.parts, hparts]
  · rw [hget₃ c, withInit, hwith₂, hcap₂, withInit]
    split
    · next hnew =>
      have hfree : pairs.lookup net.capacity = none := by
        rw [lookup_eq_none_iff_not_mem]
        intro hmem
        obtain ⟨x, hx, hcap⟩ := mem_map.mp hmem
        have hop := (h.drives x hx).2.1
        rw [hcap, op?, get?_capacity] at hop
        cases hop
      rw [hnew.2, map_some, driving, hfree]
      rfl
    · rw [hget₂ c, h.get? c]
  · rw [Network.proposition?, hget₃ c, bind_withInit net₂ c f hf, Network.proposition?, hget₂ c,
      ← Network.proposition?, h.proposition? c]

theorem Opened.players {net₃ net₄ : Network} {players : List Player} (h : Opened net pairs t i net₃)
    (hs : Paired net₃ (net₃.roles.map fun name => { name }) net.counterpart? (net.withRole .legal)
      (net₄, players)) (r : Nat) : ((net.withRole .goal).foldl net₄.recordGoal players)[r]? =
        (net.roles[r]?).map (net.playerFor r) := by
  have hplayer : net₃.playerAt = net.playerAt := funext fun c => by
    rw [playerAt, h.bind c _ rfl, ← playerAt]
  have hgoal : ∀ g, (net₄.proposition? g).bind (·.player) = (net.proposition? g).bind (·.player) := by
    intro g
    rw [hs.proposition? g, bind_map]
    exact h.bind g (·.player) rfl
  have hroles : net₃.roles = net.roles := by
    have hroles := congrArg Network.roles h.parts
    exact hroles
  rw [getElem?_recordGoals, hs.players r]
  simp only [hgoal, hplayer, hroles, getElem?_map, Option.map_map]
  cases net.roles[r]? with
  | none => rfl
  | some name =>
    simp only [scoring, Player.taking, playerFor, map_some, Function.comp_apply, nil_append]

end

/-- Sorting the propositions into their lists. -/
theorem record_ensures (hparts : net.parts = { roles := net.roles }) :
    net.record.Ensures fun net' => ∃ pairs, Registered net pairs net' := by
  unfold record
  refine .bind (.lift (recordBases_ensures net _)) fun s hs => ?_
  obtain ⟨pairs, hd, hfst, hsnd, hidle⟩ := hs
  obtain ⟨transitions, net₁⟩ := s
  dsimp only at hd hfst ⊢
  refine .bind (Observed.partly.forIn (p := fun i => net₁.inputsOf i = []) _ fun i _ => ?_)
    fun _ hundriven => ?_
  · refine Observed.Ensures.bind (.lift fun k hk => get?_of_get hk) fun k hk => ?_
    by_cases hi : k.inputs = []
    · rw [hi]
      exact .pure ⟨rfl, by rw [inputsOf_of_get? hk, hi]⟩
    · rw [if_pos (by simp [hi])]
      exact .bind (P := fun _ => False) .throw fun _ h => h.elim
  refine .bind (.lift (recordTerminal_ensures net₁)) fun net₂ h₂ => ?_
  refine .bind (recordInit_ensures net₂) fun net₃ h₃ => ?_
  obtain ⟨i, hparts₃, hget₃, hinit⟩ := h₃
  have hopened := hd.opened hparts h₂.1 hparts₃ hget₃
  have hkey : net₃.moveKey? = net.moveKey? := funext fun c => hopened.bind c _ rfl
  have hpartner : ∀ table, net₃.partner? table = net.partner? table :=
    fun table => funext fun c => hopened.bind c _ rfl
  refine .bind (.lift (inputsByMove_ensures net₃ _)) fun table htable => ?_
  rw [hkey] at htable
  obtain ⟨htable, hkeys⟩ := htable
  change table = net.moveTable at htable
  subst htable
  refine .bind (recordLegals_ensures net₃ _ _ _ fun l j hj => ?_) fun s hs => .pure ?_
  · rw [hpartner] at hj
    obtain ⟨-, hj⟩ := mem_inputs_of_counterpart? hkeys hj
    rw [← hkey] at hj
    exact Option.isSome_of_isSome_bind hj
  rw [hpartner] at hs
  obtain ⟨net₄, players⟩ := s
  have hparts₄ := hs.parts.trans hopened.parts
  have hterminal : net₄.terminal = net₂.terminal := by
    have h := congrArg Network.terminal hparts₄
    exact h
  refine ⟨pairs, ?_, fun c => ?_, hd.nodup, hsnd, hd.drives, fun i hi => ?_, ?_, ⟨i, ?_, ?_⟩, hkeys,
    hs.nodup, hopened.players hs, hidle⟩
  · have hset : ∀ (n : Network) (players : List Player), n = net₄.parts →
        { n with bases := net.withRole .base, transitions, inputs := net.withRole .input, players } =
          net.partsFor pairs players net₄.terminal net₄.init := by
      intro n players hn
      rw [hn, hparts₄, hterminal, ← hfst, show net₄.init = some i from congrArg Network.init hparts₄]
      rfl
    exact hset _ _ rfl
  · change net₄.get? c = _
    rw [hs.get? c, hopened.get? c, Option.map_map]
    rfl
  · rw [← hd.inputsOf]
    exact hundriven i hi
  · rw [← hd.withRole, h₂.2]
    exact congrArg (fun t => [t]) hterminal.symm
  · exact congrArg Network.init hparts₄
  · rw [h₂.1] at hinit
    rwa [← hd.withRole, ← hd.capacity]

end Record

end Network

end GameNet