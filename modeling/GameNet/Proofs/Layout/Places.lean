import GameNet.Proofs.Layout.Numbers

/-!
Where the canonical order puts the components.

A group without repetitions that shares nothing with the groups before it stays in one piece, so its
members get successive numbers.
-/

namespace GameNet

open List

/-! ## Lists without repetitions -/

section FirstPlaces

variable {as bs cs : List CompId} {f : CompId → CompId}

theorem Network.firstPlaces_eq (ids : List CompId) : Network.firstPlaces ids = ids.eraseDups := by
  suffices h : ∀ seen : List CompId, (ids.foldl (fun (seen : List CompId) c =>
      if seen.contains c then seen else c :: seen) seen).reverse =
        List.eraseDupsBy.loop (· == ·) ids seen from h []
  induction ids with
  | nil => exact fun _ => rfl
  | cons c ids ih =>
    intro seen
    rw [foldl_cons, ih, List.eraseDupsBy.loop, contains_eq_any_beq]
    cases seen.any (c == ·) <;> rfl

theorem Network.firstPlaces_map (hf : Function.Injective f) (ids : List CompId) :
    Network.firstPlaces (ids.map f) = (Network.firstPlaces ids).map f := by
  suffices h : ∀ seen : List CompId, (ids.map f).foldl (fun (seen : List CompId) c =>
      if seen.contains c then seen else c :: seen) (seen.map f) =
        (ids.foldl (fun (seen : List CompId) c => if seen.contains c then seen else c :: seen) seen).map f by
    rw [firstPlaces, firstPlaces, map_reverse]
    exact congrArg List.reverse (h [])
  induction ids with
  | nil => exact fun _ => rfl
  | cons c ids ih =>
    intro seen
    have hc : (seen.map f).contains (f c) = seen.contains c := by
      rw [Bool.eq_iff_iff, contains_iff_mem, contains_iff_mem, mem_map_of_injective hf]
    rw [map_cons, foldl_cons, foldl_cons, hc]
    cases seen.contains c
    · exact ih (c :: seen)
    · exact ih seen

theorem eraseDups_of_nodup (h : as.Nodup) : as.eraseDups = as := by
  induction as with
  | nil => rfl
  | cons a as ih =>
    obtain ⟨ha, hrest⟩ := nodup_cons.mp h
    have hkeep : as.filter (fun b => !b == a) = as := filter_eq_self.mpr fun b hb => by
      simp only [Bool.not_eq_true', beq_eq_false_iff_ne]
      rintro rfl
      exact ha hb
    rw [eraseDups_cons, hkeep, ih hrest]

theorem exists_block (hb : bs.Nodup) (hd : ∀ b ∈ bs, b ∉ as) :
    ∃ rest, (as ++ bs ++ cs).eraseDups = as.eraseDups ++ bs ++ rest := by
  have hkeep : bs.removeAll as = bs := filter_eq_self.mpr fun b hmem => by
    simpa using hd b hmem
  refine ⟨(cs.removeAll (as ++ bs)).eraseDups, ?_⟩
  rw [eraseDups_append, eraseDups_append, hkeep, eraseDups_of_nodup hb]

end FirstPlaces

/-! ## The canonical order -/

namespace Network

section Order

variable {net net' : Network} {order gs : List CompId} {c : CompId} {n : Nat}

def isGateAt (net : Network) (c : CompId) : Bool := (net.op? c).any Op.isGate

def grouped (net : Network) : List CompId :=
  net.bases ++ net.players.flatMap (·.inputs) ++ net.inputs ++ net.levels.flatten.filter net.isGateAt ++
    [net.terminal] ++ net.goals ++ net.transitions ++ net.legals

theorem canonicalOrder_eq_ok_iff : net.canonicalOrder = .ok order ↔
    (∀ c ∈ net.levels.flatten, net.contains c) ∧ order = firstPlaces (net.grouped ++ net.ids) := by
  have hgates : (∀ c ∈ net.levels.flatten, net.contains c) →
      net.levels.flatten.filterM (fun c => do return (← net.get c).isGate) =
        .ok (net.levels.flatten.filter net.isGateAt) := fun hlive => by
    refine Checked.filterM_yields _ fun c hc => ?_
    obtain ⟨k, hk⟩ := contains_iff.mp (hlive c hc)
    rw [get_of_get? hk, isGateAt, op?_of_get? hk]
    rfl
  constructor
  · intro h
    obtain ⟨gates, hg, h⟩ := exists_of_bind_eq_ok h
    have hlive : ∀ c ∈ net.levels.flatten, net.contains c := fun c hc => by
      obtain ⟨b, hb⟩ := Checked.exists_of_filterM_eq_ok hg c hc
      obtain ⟨k, hk, -⟩ := exists_of_bind_eq_ok hb
      exact contains_of_get? (get?_of_get hk)
    rw [hgates hlive] at hg
    cases hg
    cases h
    exact ⟨hlive, rfl⟩
  · rintro ⟨hlive, rfl⟩
    rw [canonicalOrder, hgates hlive]
    rfl

theorem ids_eq_range (h : ∀ c, net.contains c ↔ c < n) : net.ids = List.range n := by
  refine net.pairwise_ids.eq_of_mem_iff pairwise_lt_range fun c => ?_
  rw [mem_ids, mem_range, h]

theorem Orders.map_placeIn (h : Orders net order) {as bs cs : List CompId} (heq : order = as ++ bs ++ cs) :
    bs.map (net.placeIn order) = List.range' as.length bs.length := by
  refine ext_getElem? fun k => ?_
  rw [getElem?_map]
  by_cases hk : k < bs.length
  · have hplace : order[as.length + k]? = some bs[k] := by
      rw [heq, append_assoc, getElem?_append_right (Nat.le_add_right _ _),
        Nat.add_sub_cancel_left, getElem?_append_left hk, getElem?_eq_getElem hk]
    rw [getElem?_eq_getElem hk, Option.map_some, placeIn_of_getElem? h hplace, getElem?_range' hk,
      Nat.one_mul]
  · rw [getElem?_eq_none (Nat.le_of_not_lt hk), getElem?_eq_none (by
      rw [length_range']
      exact Nat.le_of_not_lt hk)]
    rfl

theorem Orders.contains_renamed (h : Orders net order) (levels : List (List CompId)) :
    (net.renamed (net.placeIn order) order levels).contains c ↔ c < order.length := by
  rw [contains_iff]
  constructor
  · rintro ⟨k, hk⟩
    rw [get?_renamed] at hk
    obtain ⟨a, ha, -⟩ := Option.bind_eq_some_iff.mp hk
    exact (List.getElem?_eq_some_iff.mp ha).1
  · intro hlt
    obtain ⟨k, hk⟩ := contains_iff.mp ((h.live _).mp (getElem_mem hlt))
    exact ⟨k.rename (net.placeIn order), by
      rw [get?_renamed, getElem?_eq_getElem hlt, Option.bind_some, hk, Option.map_some]⟩

theorem flatMap_renamed (net : Network) (f : CompId → CompId) (order : List CompId)
    (levels : List (List CompId)) :
    (net.renamed f order levels).players.flatMap (·.inputs) = (net.players.flatMap (·.inputs)).map f ∧
      (net.renamed f order levels).legals = net.legals.map f ∧
      (net.renamed f order levels).goals = net.goals.map f := by
  simp only [legals, goals, renamed, flatMap_map, map_flatMap, and_self]

theorem Orders.grouped_renamed (h : Orders net order) :
    (net.renamed (net.placeIn order) order (net.levels.map (·.map (net.placeIn order)))).grouped =
      net.grouped.map (net.placeIn order) := by
  have hgates : (net.renamed (net.placeIn order) order
      (net.levels.map (·.map (net.placeIn order)))).isGateAt ∘ net.placeIn order = net.isGateAt :=
    funext fun c => by rw [Function.comp_apply, isGateAt, (h.renames _).op?, isGateAt]
  obtain ⟨hinputs, hlegals, hgoals⟩ := flatMap_renamed net (net.placeIn order) order
    (net.levels.map (·.map (net.placeIn order)))
  simp only [grouped, map_append]
  rw [hinputs, hlegals, hgoals, ← hgates, ← filter_map, map_flatten]
  rfl

theorem firstPlaces_range (h : Orders net order) {post : List CompId} (hg : order = firstPlaces gs ++ post) :
    firstPlaces (gs.map (net.placeIn order) ++ List.range order.length) = List.range order.length := by
  have hfirst : (gs.map (net.placeIn order)).eraseDups = List.range (firstPlaces gs).length := by
    rw [← firstPlaces_eq, firstPlaces_map h.injective, range_eq_range']
    have hpiece : order = [] ++ firstPlaces gs ++ post := hg
    exact h.map_placeIn hpiece
  have hlen : order.length = (firstPlaces gs).length + post.length := by rw [← length_append, ← hg]
  have hrest : (List.range order.length).removeAll (gs.map (net.placeIn order)) =
      List.range' (firstPlaces gs).length post.length := by
    have hmem : ∀ i, i ∈ gs.map (net.placeIn order) ↔ i < (firstPlaces gs).length := fun i => by
      rw [← mem_eraseDups, hfirst, mem_range]
    rw [hlen, range_eq_range', ← range'_append_1, Nat.zero_add, List.removeAll, filter_append]
    rw [filter_eq_nil_iff.mpr, filter_eq_self.mpr, nil_append]
    · intro i hi
      have := (mem_range'_1.mp hi).1
      simpa [hmem] using this
    · intro i hi
      have := (mem_range'_1.mp hi).2
      simpa [hmem] using this
  rw [firstPlaces_eq, eraseDups_append, hfirst, hrest, eraseDups_of_nodup nodup_range', hlen,
    range_eq_range', range_eq_range', ← range'_append_1, Nat.zero_add]

end Order

/-! ## Numbering twice -/

section Twice

variable {net net' : Network} {order : List CompId} {table table' : Array (Option CompId)}
  {new new' : CompId → Checked CompId}

theorem newNumber_eq_ok_iff {c i : CompId} : newNumber table c = .ok i ↔ (table[c]?).join = some i := by
  unfold newNumber
  split
  · next j hj =>
    rw [hj]
    exact ⟨fun h => congrArg some (Except.ok.inj h), fun h => congrArg Except.ok (Option.some.inj h)⟩
  · next hj =>
    rw [hj]
    exact ⟨fun h => (by cases h), fun h => (by cases h)⟩
  · next hj =>
    rw [hj]
    exact ⟨fun h => (by cases h), fun h => (by cases h)⟩

theorem mapM_self {α : Type} {g g' : α → Checked α} (h : ∀ a b, g a = .ok b → g' b = .ok b) {as bs : List α}
    (hb : as.mapM g = .ok bs) : bs.mapM g' = .ok bs := by
  have hall : ∀ b ∈ bs, g' b = .ok (id b) := fun b hmem => by
    obtain ⟨a, -, hab⟩ := exists_of_mem_right (Checked.mapM_eq_ok hb) hmem
    exact h a b hab
  rw [Checked.mapM_yields bs hall, map_id]

theorem optionMapM_self {α : Type} {g g' : α → Checked α} (h : ∀ a b, g a = .ok b → g' b = .ok b)
    {x y : Option α} (hy : x.mapM g = .ok y) : y.mapM g' = .ok y := by
  cases x with
  | none => cases hy; rfl
  | some a =>
    obtain ⟨b, hb, hy⟩ := exists_of_bind_eq_ok hy
    cases hy
    rw [Option.mapM_some, h a b hb]
    rfl

theorem renumber_component_self (h : ∀ c i, new c = .ok i → new' i = .ok i) {k k' : Component}
    (hk : k.renumber new = .ok k') : k'.renumber new' = .ok k' := by
  obtain ⟨inputs, hi, hk⟩ := exists_of_bind_eq_ok hk
  obtain ⟨outputs, ho, hk⟩ := exists_of_bind_eq_ok hk
  dsimp only at hk
  split at hk
  · next b hb =>
    obtain ⟨b', hb', hk⟩ := exists_of_bind_eq_ok hk
    cases hk
    rw [Component.renumber, mapM_self h hi, mapM_self h ho]
    change (new' b' >>= fun b => pure _ : Checked Component) = _
    rw [h b b' hb']
    rfl
  · next p hp =>
    obtain ⟨i, hi', hk⟩ := exists_of_bind_eq_ok hk
    obtain ⟨l, hl, hk⟩ := exists_of_bind_eq_ok hk
    cases hk
    rw [Component.renumber, mapM_self h hi, mapM_self h ho]
    simp only [optionMapM_self h hi', optionMapM_self h hl]
    rfl
  · next hbase hprop =>
    cases hk
    rw [Component.renumber, mapM_self h hi, mapM_self h ho]
    dsimp only
    split
    · next b hb => exact (hbase b hb).elim
    · next p hp => exact (hprop p hp).elim
    · rfl

theorem renumber_player_self (h : ∀ c i, new c = .ok i → new' i = .ok i) {p p' : Player}
    (hp : p.renumber new = .ok p') : p'.renumber new' = .ok p' := by
  obtain ⟨inputs, hi, hp⟩ := exists_of_bind_eq_ok hp
  obtain ⟨legals, hl, hp⟩ := exists_of_bind_eq_ok hp
  obtain ⟨goals, hg, hp⟩ := exists_of_bind_eq_ok hp
  cases hp
  rw [Player.renumber, mapM_self h hi, mapM_self h hl, mapM_self h hg]
  rfl

structure Numbering (net : Network) (order : List CompId) (table : Array (Option CompId)) (net' : Network) :
    Prop where
  tabled : net.newNumbers order = .ok table
  length : order.length = net.size
  slots : (order.mapM fun c => do return some (← (← net.get c).renumber (newNumber table))) =
    .ok net'.slots.toList
  bases : net.bases.mapM (newNumber table) = .ok net'.bases
  inputs : net.inputs.mapM (newNumber table) = .ok net'.inputs
  transitions : net.transitions.mapM (newNumber table) = .ok net'.transitions
  players : net.players.mapM (·.renumber (newNumber table)) = .ok net'.players
  levels : net.levels.mapM (·.mapM (newNumber table)) = .ok net'.levels
  terminal : newNumber table net.terminal = .ok net'.terminal
  init : net.init.mapM (newNumber table) = .ok net'.init
  fixedBase : net.fixedBase.mapM (newNumber table) = .ok net'.fixedBase
  roles : net'.roles = net.roles
  start : net'.initialState = net.initialState

theorem renumber_eq_ok_iff : net.renumber order = .ok net' ↔ ∃ table, Numbering net order table net' := by
  constructor
  · intro h
    unfold renumber at h
    obtain ⟨table, htable, h⟩ := exists_of_bind_eq_ok h
    have hlen : order.length = net.size := by
      by_contra hne
      rw [if_pos hne] at h
      cases h
    rw [if_neg (not_not.mpr hlen)] at h
    obtain ⟨slots, hslots, h⟩ := exists_of_bind_eq_ok h
    obtain ⟨bases, hbases, h⟩ := exists_of_bind_eq_ok h
    obtain ⟨inputs, hinputs, h⟩ := exists_of_bind_eq_ok h
    obtain ⟨transitions, htransitions, h⟩ := exists_of_bind_eq_ok h
    obtain ⟨players, hplayers, h⟩ := exists_of_bind_eq_ok h
    obtain ⟨levels, hlevels, h⟩ := exists_of_bind_eq_ok h
    obtain ⟨terminal, hterminal, h⟩ := exists_of_bind_eq_ok h
    obtain ⟨init, hinit, h⟩ := exists_of_bind_eq_ok h
    obtain ⟨fixedBase, hfixed, h⟩ := exists_of_bind_eq_ok h
    cases h
    exact ⟨table, htable, hlen, hslots, hbases, hinputs, htransitions, hplayers, hlevels, hterminal, hinit,
      hfixed, rfl, rfl⟩
  · rintro ⟨table, h⟩
    unfold renumber
    rw [h.tabled]
    change (if order.length ≠ net.size then _ else _ : Checked Network) = _
    rw [if_neg (not_not.mpr h.length), h.slots, h.bases, h.inputs, h.transitions, h.players, h.levels,
      h.terminal, h.init, h.fixedBase]
    dsimp only [bind, Except.bind]
    rw [← h.roles, ← h.start]
    rfl

/-- In the order of its numbers, a network that was numbered anew keeps them. -/
theorem renumber_range (h : net.renumber order = .ok net') :
    net'.renumber (List.range order.length) = .ok net' := by
  obtain ⟨ho, hrenamed⟩ := renumber_ensures net order net' h
  obtain ⟨table, h⟩ := renumber_eq_ok_iff.mp h
  have hlive : ∀ c, net'.contains c ↔ c < order.length := fun c => by
    rw [hrenamed]
    exact ho.contains_renamed _
  have htabled := newNumbers_ensures net order table h.tabled
  have hall : ∀ c ∈ List.range order.length, net'.contains c := fun c hc =>
    (hlive c).mpr (mem_range.mp hc)
  obtain ⟨table', htable', htabled'⟩ := newNumbers_yields nodup_range hall
  -- a new number is a place in the order, and in the order of the numbers it is its own place
  have hself : ∀ c i, newNumber table c = .ok i → newNumber table' i = .ok i := fun c i hi => by
    have hlt := (List.getElem?_eq_some_iff.mp ((htabled.place c i).mp (newNumber_eq_ok_iff.mp hi))).1
    exact newNumber_eq_ok_iff.mpr ((htabled'.place i i).mpr (getElem?_range hlt))
  refine renumber_eq_ok_iff.mpr ⟨table',
    { tabled := htable'
      length := by rw [← length_ids, ids_eq_range hlive]
      slots := ?_
      bases := mapM_self hself h.bases
      inputs := mapM_self hself h.inputs
      transitions := mapM_self hself h.transitions
      players := mapM_self (fun _ _ => renumber_player_self hself) h.players
      levels := mapM_self (fun _ _ => mapM_self hself) h.levels
      terminal := hself _ _ h.terminal
      init := optionMapM_self hself h.init
      fixedBase := optionMapM_self hself h.fixedBase
      roles := rfl
      start := rfl }⟩
  have hslots := Checked.mapM_eq_ok h.slots
  have hlen : net'.slots.toList.length = order.length := hslots.length_eq.symm
  have hslot : ∀ i < order.length, ∃ k, net'.slots.toList[i]? = some (some k) ∧
      k.renumber (newNumber table') = .ok k := fun i hlt => by
    have hlt' : i < net'.slots.toList.length := hlen ▸ hlt
    obtain ⟨k, -, hslot⟩ := exists_of_bind_eq_ok (hslots.get hlt hlt')
    obtain ⟨k', hk', hslot⟩ := exists_of_bind_eq_ok hslot
    refine ⟨k', ?_, renumber_component_self hself hk'⟩
    rw [getElem?_eq_getElem hlt']
    exact congrArg some (Except.ok.inj hslot).symm
  rw [Checked.mapM_yields (g := net'.get?) _ fun i hi => ?_]
  · refine congrArg Except.ok (ext_getElem? fun i => ?_)
    rw [getElem?_map]
    by_cases hlt : i < order.length
    · obtain ⟨k, hk, -⟩ := hslot i hlt
      rw [getElem?_range hlt, hk, Option.map_some, Network.get?, ← Array.getElem?_toList, hk]
      rfl
    · rw [getElem?_eq_none (by rwa [length_range, ← Nat.not_lt]),
        getElem?_eq_none (by rwa [hlen, ← Nat.not_lt])]
      rfl
  · obtain ⟨k, hk, hren⟩ := hslot i (mem_range.mp hi)
    have hget : net'.get? i = some k := by
      rw [Network.get?, ← Array.getElem?_toList, hk]
      rfl
    rw [get_of_get? hget, hget]
    change (k.renumber (newNumber table') >>= fun k => pure (some k) : Checked (Option Component)) = _
    rw [hren]
    rfl

/-- Numbering the components in canonical order is done once and for all. -/
theorem reorderComponents_self (h : net.reorderComponents = .ok net') : net'.reorderComponents = .ok net' := by
  obtain ⟨order, horder, hre⟩ := exists_of_bind_eq_ok h
  obtain ⟨hlevels, hfirst⟩ := canonicalOrder_eq_ok_iff.mp horder
  obtain ⟨ho, hrenamed⟩ := renumber_ensures net order net' hre
  have hlive : ∀ c, net'.contains c ↔ c < order.length := fun c => by
    rw [hrenamed]
    exact ho.contains_renamed _
  have hsame : net'.canonicalOrder = .ok (List.range order.length) := by
    refine canonicalOrder_eq_ok_iff.mpr ⟨fun c hc => ?_, ?_⟩
    · rw [hrenamed, renamed] at hc
      dsimp only at hc
      rw [← map_flatten] at hc
      obtain ⟨a, ha, rfl⟩ := mem_map.mp hc
      rw [hrenamed, (ho.renames _).contains]
      exact hlevels a ha
    · rw [ids_eq_range hlive, hrenamed, ho.grouped_renamed]
      have hpost : order = firstPlaces net.grouped ++ (net.ids.removeAll net.grouped).eraseDups := by
        rw [hfirst, firstPlaces_eq, firstPlaces_eq, eraseDups_append]
      exact (firstPlaces_range ho hpost).symm
  rw [reorderComponents, hsame]
  exact renumber_range hre

end Twice

end Network

end GameNet
