import GameNet.Proofs.Layout.Places
import GameNet.Proofs.Layout.Roster

/-!
The tables that describe a network.

In canonical order the parts in the game stand in runs, so a description needs to say only where a run
begins and how long it is.
-/

namespace GameNet

open List Option

namespace Network

/-! ## Runs of components -/

def IsRun (cs : List CompId) : Prop := ∃ start, cs = List.range' start cs.length

/-- The parts in the game stand in runs. No transition stands before the run of the transitions. -/
structure Runs (net : Network) : Prop where
  bases : net.bases = List.range net.bases.length
  transitions : ∃ start, net.transitions = List.range' start net.transitions.length ∧
    ∀ t, net.op? t = some .transition → start ≤ t
  players : ∀ p ∈ net.players, IsRun p.inputs ∧ IsRun p.legals ∧ IsRun p.goals

section Runs

variable {net net' : Network} {order : List CompId} {c : CompId} {role : PropRole}

theorem nodup_of_forall₂ {α β : Type} {R : α → β → Prop} {as : List α} {bs : List β}
    (h : List.Forall₂ R as bs) (hR : ∀ a a' b, R a b → R a' b → a = a') (ha : as.Nodup) : bs.Nodup := by
  induction h with
  | nil => exact .nil
  | cons hab hrest ih =>
    obtain ⟨hnot, hnodup⟩ := nodup_cons.mp ha
    refine nodup_cons.mpr ⟨fun hmem => ?_, ih hnodup⟩
    obtain ⟨a', ha', hab'⟩ := exists_of_mem_right hrest hmem
    exact hnot (hR _ _ _ hab hab' ▸ ha')

theorem exists_of_forall₂ {α β : Type} {R R' : α → β → Prop} {as : List α} {bs : List β}
    (h : List.Forall₂ R as bs) (h' : List.Forall₂ R' as bs) : ∀ a ∈ as, ∃ b, R a b ∧ R' a b := by
  induction h with
  | nil => exact forall_mem_nil _
  | cons hab _ ih =>
    obtain ⟨hab', hrest'⟩ := forall₂_cons.mp h'
    exact forall_mem_cons.mpr ⟨⟨_, hab, hab'⟩, ih hrest'⟩

theorem Cast.nodup_transitions (h : net.Cast) : net.transitions.Nodup := by
  refine nodup_of_forall₂ h.driven (fun b b' t hb hb' => ?_) h.bases_nodup
  cases hb.symm.trans hb'
  rfl

theorem Aligned.forall₂ (h : net.Aligned) :
    List.Forall₂ (fun l i => net.pairedInput? l = some i) net.legals (net.players.flatMap (·.inputs)) := by
  unfold Aligned at h
  rw [Network.legals]
  revert h
  generalize net.players = ps
  induction ps with
  | nil => exact fun _ => .nil
  | cons p ps ih =>
    intro h
    rw [flatMap_cons, flatMap_cons]
    exact rel_append (h p mem_cons_self) (ih (forall_mem_cons.mp h).2)

theorem Arranged.nodup_inputs (h : net.Arranged) : (net.players.flatMap (·.inputs)).Nodup := by
  refine nodup_of_forall₂ h.aligned.forall₂ (fun l l' i hl hl' => ?_) h.rostered.legals
  have hl := (h.formed.paired l i hl).2.2
  have hl' := (h.formed.paired l' i hl').2.2
  exact Option.some.inj (hl.symm.trans hl')

def leading (net : Network) : List CompId :=
  net.bases ++ net.players.flatMap (·.inputs) ++ net.inputs ++ net.levels.flatten.filter net.isGateAt ++
    [net.terminal]

def playing (net : Network) : PropRole → List CompId
  | .base => net.bases
  | .input => net.players.flatMap (·.inputs)
  | .legal => net.legals
  | .goal => net.goals
  | .terminal => [net.terminal]
  | _ => []

section

variable (h : net.Arranged)
include h

theorem Arranged.isRole_input (hc : c ∈ net.players.flatMap (·.inputs)) : net.isRole c .input := by
  obtain ⟨l, -, hl⟩ := exists_of_mem_right h.aligned.forall₂ hc
  exact h.formed.inputs c (h.formed.paired l c hl).2.1

theorem Arranged.isRole_of_playing (role : PropRole) : ∀ c ∈ net.playing role, net.isRole c role := by
  intro c hc
  cases role with
  | base => exact (h.formed.base c hc).1
  | input => exact h.isRole_input hc
  | legal => exact (h.formed.legal c hc).1
  | goal => exact h.formed.goal c hc
  | terminal => exact mem_singleton.mp hc ▸ h.formed.terminal
  | init | other => cases hc

theorem Arranged.of_mem_leading (hc : c ∈ net.leading) :
    net.isGateAt c ∨ ∃ role, net.isRole c role ∧ role ≠ .goal ∧ role ≠ .legal := by
  simp only [leading, mem_append, mem_filter, mem_singleton] at hc
  rcases hc with (((hb | hp) | hi) | hg) | rfl
  · exact .inr ⟨.base, (h.formed.base c hb).1, by decide, by decide⟩
  · exact .inr ⟨.input, h.isRole_input hp, by decide, by decide⟩
  · exact .inr ⟨.input, h.formed.inputs c hi, by decide, by decide⟩
  · exact .inl hg.2
  · exact .inr ⟨.terminal, h.formed.terminal, by decide, by decide⟩

theorem Arranged.not_mem_leading (hr : net.isRole c role)
    (hrole : role = .goal ∨ role = .legal) : c ∉ net.leading := by
  intro hc
  rcases h.of_mem_leading hc with hg | ⟨role', hr', hgoal, hlegal⟩
  · rw [isGateAt, op?_of_isRole hr] at hg
    cases hg
  · obtain rfl := isRole_unique hr hr'
    exact hrole.elim hgoal hlegal

theorem Arranged.not_transition_of_mem_leading (hc : c ∈ net.leading) : net.op? c ≠ some .transition := by
  intro hop
  rcases h.of_mem_leading hc with hg | ⟨role, hr, -⟩
  · rw [isGateAt, hop] at hg
    cases hg
  · rw [op?_of_isRole hr] at hop
    cases hop

theorem Arranged.pieces (horder : order = firstPlaces (net.grouped ++ net.ids)) :
    (∃ rest, order = [] ++ net.bases ++ rest) ∧
    (∃ pre rest, order = pre ++ net.players.flatMap (·.inputs) ++ rest) ∧
    (∃ pre rest, order = pre ++ net.goals ++ rest) ∧
    (∃ rest, order = (net.leading ++ net.goals).eraseDups ++ net.transitions ++ rest) ∧
    ∃ pre rest, order = pre ++ net.legals ++ rest := by
  have hpiece : ∀ as bs : List CompId, as ++ bs <+: net.grouped ++ net.ids → bs.Nodup →
      (∀ b ∈ bs, b ∉ as) → ∃ rest, order = as.eraseDups ++ bs ++ rest := fun as bs hpre hb hd => by
    obtain ⟨cs, hcs⟩ := hpre
    rw [horder, firstPlaces_eq, ← hcs]
    exact exists_block hb hd
  have hgoal : ∀ g ∈ net.goals, g ∉ net.leading := fun g hg =>
    h.not_mem_leading (h.formed.goal g hg) (.inl rfl)
  have htransition : ∀ t ∈ net.transitions, t ∉ net.leading ++ net.goals := fun t ht hmem => by
    have hop := h.formed.op?_of_transition ht
    rcases mem_append.mp hmem with hlead | hg
    · exact h.not_transition_of_mem_leading hlead hop
    · rw [op?_of_isRole (h.formed.goal t hg)] at hop
      cases hop
  have hlegal : ∀ l ∈ net.legals, l ∉ net.leading ++ net.goals ++ net.transitions := fun l hl hmem => by
    have hrole := (h.formed.legal l hl).1
    rcases mem_append.mp hmem with hmem | ht
    · rcases mem_append.mp hmem with hlead | hg
      · exact h.not_mem_leading hrole (.inr rfl) hlead
      · exact absurd (isRole_unique hrole (h.formed.goal l hg)) (by decide)
    · have hop := h.formed.op?_of_transition ht
      rw [op?_of_isRole hrole] at hop
      cases hop
  have hinput : ∀ i ∈ net.players.flatMap (·.inputs), i ∉ net.bases := fun i hi hb =>
    absurd (isRole_unique (h.isRole_input hi) (h.formed.base i hb).1) (by decide)
  have hgoals : net.leading ++ net.goals <+: net.grouped ++ net.ids :=
    ((prefix_append _ _).trans (prefix_append _ _)).trans (prefix_append _ _)
  have hfirst : net.bases ++ net.players.flatMap (·.inputs) <+: net.grouped ++ net.ids :=
    (((prefix_append _ _).trans (prefix_append _ _)).trans (prefix_append _ _)).trans
      ((prefix_append _ _).trans hgoals)
  refine ⟨?_, ?_, ?_, ?_, ?_⟩
  · exact hpiece [] net.bases ((prefix_append _ _).trans hfirst) h.formed.bases_nodup fun _ _ => not_mem_nil
  · exact ⟨_, hpiece _ _ hfirst h.nodup_inputs hinput⟩
  · exact ⟨_, hpiece _ _ hgoals h.rostered.goals hgoal⟩
  · exact hpiece _ _ ((prefix_append _ _).trans (prefix_append _ _)) h.formed.nodup_transitions htransition
  · exact ⟨_, hpiece _ _ (prefix_append _ _) h.rostered.legals hlegal⟩

end

theorem length_gates (net : Network) :
    (net.components.filter fun x => x.2.isGate).length = (net.ids.filter net.isGateAt).length := by
  rw [ids, List.filter_map, length_map]
  refine congrArg List.length (filter_congr fun x hx => ?_)
  rw [Function.comp_apply, isGateAt, op?_of_get? (mem_components.mp hx)]
  rfl

theorem Orders.isRun_view (ho : Orders net order) (view : Player → List CompId) {pre rest : List CompId}
    (heq : order = pre ++ net.players.flatMap view ++ rest) {p : Player} (hp : p ∈ net.players) :
    IsRun ((view p).map (net.placeIn order)) := by
  obtain ⟨ps, qs, hps⟩ := append_of_mem hp
  have hpiece : order = (pre ++ ps.flatMap view) ++ view p ++ (qs.flatMap view ++ rest) := by
    rw [heq, hps, flatMap_append, flatMap_cons]
    simp only [append_assoc]
  exact ⟨_, by rw [ho.map_placeIn hpiece, length_range']⟩

theorem Orders.le_placeIn (ho : Orders net order) {as rest : List CompId} (heq : order = as.eraseDups ++ rest)
    (hc : net.contains c) (has : c ∉ as) : as.eraseDups.length ≤ net.placeIn order c := by
  obtain ⟨i, hi⟩ := getElem?_of_mem ((ho.live c).mpr hc)
  rw [placeIn_of_getElem? ho hi]
  by_contra hlt
  rw [heq, getElem?_append_left (Nat.lt_of_not_le hlt)] at hi
  exact has (mem_eraseDups.mp (mem_of_getElem? hi))

/-- In canonical order, the numbers have no gaps and the parts stand in runs. -/
theorem Arranged.reorderComponents (h : net.Arranged) (hok : net.reorderComponents = .ok net') :
    (∀ c, net'.contains c ↔ c < net'.size) ∧ net'.Arranged ∧ net'.Runs := by
  obtain ⟨order, horder, hok⟩ := exists_of_bind_eq_ok hok
  obtain ⟨-, hfirst⟩ := canonicalOrder_eq_ok_iff.mp horder
  obtain ⟨ho, rfl⟩ := renumber_ensures net order net' hok
  obtain ⟨⟨rest, hbases⟩, ⟨pre₁, rest₁, hinputs⟩, ⟨pre₂, rest₂, hgoals⟩, ⟨rest₃, htransitions⟩,
    pre₄, rest₄, hlegals⟩ := h.pieces hfirst
  have hre := ho.renames (net.levels.map (·.map (net.placeIn order)))
  refine ⟨fun c => ?_, ⟨hre.formed h.formed, ho.aligned _ h.aligned, hre.rostered h.rostered, ?_⟩, ?_, ?_,
    fun p' hp' => ?_⟩
  · rw [ho.contains_renamed, ← length_ids, ids_eq_range fun c => ho.contains_renamed _, length_range]
  · exact h.width.trans (length_map _).symm
  · change net.bases.map _ = List.range (net.bases.map _).length
    rw [length_map, range_eq_range']
    exact ho.map_placeIn hbases
  · refine ⟨(net.leading ++ net.goals).eraseDups.length, ?_, fun t hop => ?_⟩
    · change net.transitions.map _ = List.range' _ (net.transitions.map _).length
      rw [length_map]
      exact ho.map_placeIn htransitions
    · obtain ⟨c, hc, rfl⟩ := hre.onto t (contains_of_op? hop)
      rw [hre.op?] at hop
      rw [append_assoc] at htransitions
      refine ho.le_placeIn htransitions hc fun hmem => ?_
      rcases mem_append.mp hmem with hlead | hg
      · exact h.not_transition_of_mem_leading hlead hop
      · rw [op?_of_isRole (h.formed.goal c hg)] at hop
        cases hop
  · obtain ⟨p, hp, rfl⟩ := mem_map.mp hp'
    exact ⟨ho.isRun_view Player.inputs hinputs hp, ho.isRun_view Player.legals hlegals hp,
      ho.isRun_view Player.goals hgoals hp⟩

end Runs

end Network

/-! ## Tables -/

namespace Description

open Network

def runFrom (start : Option CompId) (length : Nat) : List CompId := start.elim [] (List.range' · length)

def startAt (d : Description) (c : CompId) : Nat := (d.rows[c]?).elim d.outputs.length (·.outputStart)

structure Role.Lays (r : Role) (p : Player) : Prop where
  name : r.name = p.name
  inputs : p.inputs = runFrom r.inputStart r.moves
  legals : p.legals = runFrom r.legalStart r.moves
  goals : p.goals = runFrom r.goalStart r.goals
  inputStart : r.inputStart = none ↔ r.moves = 0
  legalStart : r.legalStart = none ↔ r.moves = 0
  goalStart : r.goalStart = none ↔ r.goals = 0

structure Lays (d : Description) (net : Network) : Prop where
  ids : net.ids = List.range d.sizes.components
  rowIds : d.rows.map (·.id) = List.range d.sizes.components
  labelIds : d.labels.map (·.id) = List.range d.sizes.components
  bases : net.bases = List.range d.sizes.bases
  start : net.initialState = d.initialState ∧ d.initialState.length = d.sizes.bases
  transitions : ∃ start, net.transitions = List.range' start d.sizes.transitions ∧
    ∀ t, net.op? t = some .transition → start ≤ t
  driven : List.Forall₂ (fun b t => net.kind? t = some (.transition (some b))) net.bases net.transitions
  terminal : net.terminal = d.terminal
  totals : d.sizes.levels = net.levels.length ∧ d.gates = (net.ids.filter net.isGateAt).length
  played : ∀ role, ∀ c ∈ net.playing role, net.isRole c role = true
  aligned : net.Aligned
  roles : List.Forall₂ Role.Lays d.roles net.players ∧ d.roles.map (·.index) = List.range d.sizes.roles
  /-- the inputs and the legals of a role are for the same moves, one by one -/
  moves : ∀ r ∈ d.roles, ∀ s t, r.inputStart = some s → r.legalStart = some t → ∀ k < r.moves,
    ∃ a b, d.labels[s + k]? = some a ∧ d.labels[t + k]? = some b ∧ a.move = b.move ∧
      a.move = (net.moveText? (s + k)).getD ""
  label : ∀ c k, net.get? c = some k → ∃ label, d.labels[c]? = some label ∧ labelOf net c k = .ok label
  /-- the outputs of a component in ascending order, and one absent entry -/
  row : ∀ c k, net.get? c = some k → ∃ start, d.rows[c]? = some (rowOf start c k) ∧
    (d.outputs.drop start).take k.outputs.length = (CompId.sorted k.outputs).map some ∧
    d.outputs[start + k.outputs.length]? = some none
  /-- and nothing else is in the output table -/
  tiled : d.startAt 0 = 0 ∧ d.outputs.length = d.sizes.outputs ∧ ∀ c row, d.rows[c]? = some row →
    d.startAt (c + 1) = row.outputStart + row.outputs + 1
  balanced : net.Balanced

section Tables

variable {net : Network} {d : Description} {c : CompId} {k : Component} {n : Nat}
  {comps : List (CompId × Component)}

theorem eq_runFrom_of_isRun {cs : List CompId} (h : IsRun cs) : cs = runFrom cs.head? cs.length := by
  obtain ⟨start, hcs⟩ := h
  cases cs with
  | nil => rfl
  | cons c cs =>
    have hhead : c = start := by
      rw [length_cons, range'_succ] at hcs
      exact (List.cons.inj hcs).1
    subst hhead
    exact hcs

theorem head?_eq_none_iff_length (cs : List CompId) : cs.head? = none ↔ cs.length = 0 := by
  rw [head?_eq_none_iff, length_eq_zero_iff]

theorem roleOf_lays {p : Player} (hi : IsRun p.inputs) (hl : IsRun p.legals) (hg : IsRun p.goals)
    (hlen : p.legals.length = p.inputs.length) (index : Nat) : (roleOf index p).Lays p where
  name := rfl
  inputs := eq_runFrom_of_isRun hi
  legals := (eq_runFrom_of_isRun hl).trans (by rw [hlen]; rfl)
  goals := eq_runFrom_of_isRun hg
  inputStart := head?_eq_none_iff_length p.inputs
  legalStart := (head?_eq_none_iff_length p.legals).trans (by rw [hlen]; rfl)
  goalStart := head?_eq_none_iff_length p.goals

def tableOf (comps : List (CompId × Component)) : List (Option CompId) := comps.flatMap fun x => runOf x.2

theorem length_runOf (k : Component) : (runOf k).length = k.outputs.length + 1 := by
  rw [runOf, length_append, length_map, CompId.sorted, (sortBy_perm _ k.outputs).length_eq]
  rfl

theorem getElem?_rowsFrom (comps : List (CompId × Component)) : ∀ start i : Nat,
    (rowsFrom start comps)[i]? = (comps[i]?).map fun x =>
      rowOf (start + (tableOf (comps.take i)).length) x.1 x.2 := by
  induction comps with
  | nil => exact fun _ _ => rfl
  | cons x comps ih =>
    intro start i
    obtain ⟨c, k⟩ := x
    cases i with
    | zero => rfl
    | succ i =>
      rw [rowsFrom, getElem?_cons_succ, getElem?_cons_succ, ih, take_succ_cons, tableOf, tableOf,
        flatMap_cons, length_append, Nat.add_assoc]

theorem getElem?_components (h : ∀ c, net.contains c ↔ c < n) (c : CompId) :
    net.components[c]? = (net.get? c).map (c, ·) := by
  have hids : net.components.map (·.1) = List.range n := ids_eq_range h
  cases hx : net.components[c]? with
  | none =>
    have hlen : n ≤ c := by
      rw [← length_range (n := n), ← hids, length_map]
      exact List.getElem?_eq_none_iff.mp hx
    have hnone : net.get? c = none := by
      rw [get?_eq_none_iff, ← Bool.not_eq_true, h]
      exact Nat.not_lt.mpr hlen
    rw [hnone]
    rfl
  | some x =>
    obtain ⟨c', k⟩ := x
    have hget : (List.range n)[c]? = some c' := by rw [← hids, getElem?_map, hx, map_some]
    obtain ⟨hlt, hget⟩ := List.getElem?_eq_some_iff.mp hget
    rw [getElem_range] at hget
    subst hget
    rw [mem_components.mp (mem_of_getElem? hx), map_some]

theorem labelOf_eq_ok {label : Label} (h : labelOf net c k = .ok label) :
    label.id = c ∧ label.kind = k.op.name ∧ (∀ term, k.term? = some term → label.term = term.render) ∧
      label.move = ((k.proposition?.bind (·.move)).map Term.render).getD "" ∧
      label.goal = k.proposition?.bind (·.goal) := by
  unfold labelOf at h
  cases hkind : k.kind with
  | proposition p =>
    rw [hkind] at h
    cases h
    simp [Component.proposition?, Component.term?, hkind]
  | transition base? =>
    rw [hkind] at h
    cases base? with
    | none =>
      cases h
      simp [Component.proposition?, Component.term?, hkind]
    | some b =>
      obtain ⟨k', -, h⟩ := exists_of_bind_eq_ok h
      cases h
      simp [Component.proposition?, Component.term?, hkind]
  | and | or | not | constant =>
    rw [hkind] at h
    cases h
    simp [Component.proposition?, Component.term?, hkind]

theorem ofNetwork_eq_ok (h : ofNetwork net = .ok d) :
    d.sizes = ⟨net.players.length, net.bases.length, net.transitions.length, net.size, d.outputs.length,
      net.levels.length⟩ ∧
    d.roles = (net.players.zipIdx.map fun x => roleOf x.2 x.1) ∧ d.rows = rowsFrom 0 net.components ∧
    d.outputs = tableOf net.components ∧
    List.Forall₂ (fun x label => labelOf net x.1 x.2 = .ok label) net.components d.labels ∧
    d.initialState = net.initialState ∧ d.gates = (net.components.filter fun x => x.2.isGate).length ∧
    d.terminal = net.terminal := by
  unfold ofNetwork at h
  by_cases hgap : net.capacity = net.size
  swap
  · rw [if_pos hgap] at h
    cases h
  rw [if_neg (not_not.mpr hgap)] at h
  obtain ⟨labels, hlabels, h⟩ := exists_of_bind_eq_ok h
  cases h
  exact ⟨rfl, rfl, rfl, rfl, Checked.mapM_eq_ok hlabels, rfl, rfl, rfl⟩

theorem tableOf_eq_append {i : Nat} {x : CompId × Component} (hx : comps[i]? = some x) :
    tableOf comps = tableOf (comps.take i) ++ (runOf x.2 ++ tableOf (comps.drop (i + 1))) := by
  obtain ⟨hlt, rfl⟩ := List.getElem?_eq_some_iff.mp hx
  have hsplit : comps = comps.take i ++ comps[i] :: comps.drop (i + 1) := by
    rw [← drop_eq_getElem_cons hlt, take_append_drop]
  conv_lhs => rw [hsplit]
  rw [tableOf, flatMap_append, flatMap_cons]
  rfl

theorem map_id_rowsFrom (comps : List (CompId × Component)) : ∀ start,
    (rowsFrom start comps).map (·.id) = comps.map (·.1) := by
  induction comps with
  | nil => exact fun _ => rfl
  | cons x comps ih =>
    intro start
    rw [rowsFrom, map_cons, map_cons, ih]
    rfl

theorem slice_tableOf {i : Nat} {x : CompId × Component} (hx : comps[i]? = some x) :
    ((tableOf comps).drop (tableOf (comps.take i)).length).take x.2.outputs.length =
        (CompId.sorted x.2.outputs).map some ∧
      (tableOf comps)[(tableOf (comps.take i)).length + x.2.outputs.length]? = some none := by
  have hlen : ((CompId.sorted x.2.outputs).map some).length = x.2.outputs.length := by
    rw [length_map, CompId.sorted, (sortBy_perm _ _).length_eq]
  rw [tableOf_eq_append hx, runOf, append_assoc]
  constructor
  · rw [drop_left, ← hlen, take_left]
  rw [getElem?_append_right (Nat.le_add_right _ _), Nat.add_sub_cancel_left, ← hlen,
    getElem?_append_right (Nat.le_refl _), Nat.sub_self]
  rfl

theorem startAt_of_tables (hrows : d.rows = rowsFrom 0 comps) (houtputs : d.outputs = tableOf comps)
    (c : CompId) : d.startAt c = (tableOf (comps.take c)).length := by
  rw [startAt, hrows, getElem?_rowsFrom, houtputs]
  cases hx : comps[c]? with
  | some x => exact Nat.zero_add _
  | none =>
    rw [take_of_length_le (List.getElem?_eq_none_iff.mp hx)]
    rfl

theorem exists_label (hlive : ∀ c, net.contains c ↔ c < n)
    (h : List.Forall₂ (fun x label => labelOf net x.1 x.2 = .ok label) net.components d.labels)
    (hk : net.get? c = some k) : ∃ label, d.labels[c]? = some label ∧ labelOf net c k = .ok label := by
  have hx := getElem?_components hlive c
  rw [hk, map_some] at hx
  obtain ⟨hlt, hx⟩ := List.getElem?_eq_some_iff.mp hx
  have hlt' : c < d.labels.length := h.length_eq ▸ hlt
  have hlabel := h.get hlt hlt'
  rw [get_eq_getElem, hx] at hlabel
  exact ⟨d.labels[c], getElem?_eq_getElem hlt', hlabel⟩

theorem map_id_labels (hlive : ∀ c, net.contains c ↔ c < net.size)
    (h : List.Forall₂ (fun x label => labelOf net x.1 x.2 = .ok label) net.components d.labels) :
    d.labels.map (·.id) = List.range net.size := by
  refine ext_getElem? fun c => ?_
  rw [getElem?_map]
  by_cases hc : c < net.size
  · obtain ⟨k, hk⟩ := contains_iff.mp ((hlive c).mpr hc)
    obtain ⟨label, hget, hlabel⟩ := exists_label hlive h hk
    rw [hget, getElem?_range hc, map_some, (labelOf_eq_ok hlabel).1]
  have hlen : d.labels.length = net.size := by
    rw [← h.length_eq, ← length_ids, Network.ids, length_map]
  rw [getElem?_eq_none (by rwa [hlen, ← Nat.not_lt]),
    getElem?_eq_none (by rwa [length_range, ← Nat.not_lt])]
  rfl

theorem getElem?_of_isRun {cs : List CompId} {start i : Nat} (h : IsRun cs) (hstart : cs.head? = some start)
    (hi : i < cs.length) : cs[i]? = some (start + i) := by
  rw [eq_runFrom_of_isRun h, hstart]
  exact (getElem?_range' hi).trans (by rw [Nat.one_mul])

theorem exists_moves (hlive : ∀ c, net.contains c ↔ c < n) (ha : net.Arranged) (hr : net.Runs)
    (h : List.Forall₂ (fun x label => labelOf net x.1 x.2 = .ok label) net.components d.labels)
    {p : Player} (hp : p ∈ net.players) {s t i : Nat} (hs : p.inputs.head? = some s)
    (ht : p.legals.head? = some t) (hi : i < p.inputs.length) :
    ∃ a b, d.labels[s + i]? = some a ∧ d.labels[t + i]? = some b ∧ a.move = b.move ∧
      a.move = (net.moveText? (s + i)).getD "" := by
  obtain ⟨hinputs, hlegals, -⟩ := hr.players p hp
  have hinput := getElem?_of_isRun hinputs hs hi
  have hlegal := getElem?_of_isRun hlegals ht ((ha.aligned p hp).length_eq.symm ▸ hi)
  have hpair := forall₂_getElem? (ha.aligned p hp) hlegal hinput
  obtain ⟨kl, hkl, -⟩ := bind_eq_some_iff.mp hpair
  obtain ⟨ki, hki⟩ := contains_iff.mp
    (contains_of_isRole (ha.formed.inputs _ (ha.formed.paired _ _ hpair).2.1))
  obtain ⟨a, hga, hla⟩ := exists_label hlive h hki
  obtain ⟨b, hgb, hlb⟩ := exists_label hlive h hkl
  have hmove := ha.rostered.move _ _ hpair
  rw [move?, move?, proposition?_of_get? hkl, proposition?_of_get? hki] at hmove
  refine ⟨a, b, hga, hgb, by rw [(labelOf_eq_ok hla).2.2.2.1, (labelOf_eq_ok hlb).2.2.2.1, hmove], ?_⟩
  rw [(labelOf_eq_ok hla).2.2.2.1, moveText?, hki]
  rfl

theorem forall₂_lays (ha : net.Arranged) (hr : net.Runs) :
    List.Forall₂ Role.Lays (net.players.zipIdx.map fun x => roleOf x.2 x.1) net.players := by
  rw [forall₂_map_left_iff]
  refine forall₂_iff_get.mpr ⟨length_zipIdx, fun i hi hi' => ?_⟩
  rw [get_eq_getElem, get_eq_getElem, getElem_zipIdx]
  have hp : net.players[i] ∈ net.players := getElem_mem hi'
  obtain ⟨hinputs, hlegals, hgoals⟩ := hr.players _ hp
  exact roleOf_lays hinputs hlegals hgoals (ha.aligned _ hp).length_eq _

theorem lays_of_ofNetwork (hlive : ∀ c, net.contains c ↔ c < net.size) (ha : net.Arranged)
    (hr : net.Runs) (h : ofNetwork net = .ok d) : d.Lays net := by
  obtain ⟨hsizes, hroles, hrows, houtputs, hlabels, hstart, hgates, hterminal⟩ := ofNetwork_eq_ok h
  have hids : net.components.map (·.1) = List.range net.size := ids_eq_range hlive
  refine
    { ids := by rw [hsizes]; exact hids
      rowIds := by rw [hsizes, hrows, map_id_rowsFrom, hids]
      labelIds := by rw [hsizes, map_id_labels hlive hlabels]
      bases := by rw [hsizes]; exact hr.bases
      start := ⟨hstart.symm, by rw [hstart, hsizes]; exact ha.width⟩
      transitions := by rw [hsizes]; exact hr.transitions
      driven := ha.formed.driven
      terminal := hterminal.symm
      totals := ⟨by rw [hsizes], hgates.trans net.length_gates⟩
      played := ha.isRole_of_playing
      aligned := ha.aligned
      roles := ⟨hroles ▸ forall₂_lays ha hr, ?_⟩
      moves := fun r hmem s t hs ht i hi => ?_
      label := fun c k hk => exists_label hlive hlabels hk
      row := fun c k hk => ?_
      tiled := ⟨?_, by rw [hsizes], fun c row hrow => ?_⟩
      balanced := ha.formed.balanced }
  · rw [hroles, List.map_map, hsizes, range_eq_range']
    exact zipIdx_map_snd 0 net.players
  · rw [hroles] at hmem
    obtain ⟨x, hx, rfl⟩ := mem_map.mp hmem
    exact exists_moves hlive ha hr hlabels (fst_mem_of_mem_zipIdx hx) hs ht hi
  · have hx : net.components[c]? = some (c, k) := by rw [getElem?_components hlive, hk, map_some]
    obtain ⟨hslice, hend⟩ := slice_tableOf hx
    refine ⟨(tableOf (net.components.take c)).length, ?_, ?_, ?_⟩
    · rw [hrows, getElem?_rowsFrom, hx, Nat.zero_add]
      rfl
    · rwa [houtputs]
    · rwa [houtputs]
  · rw [startAt_of_tables hrows houtputs]
    rfl
  · rw [hrows, getElem?_rowsFrom] at hrow
    obtain ⟨x, hx, rfl⟩ := map_eq_some_iff.mp hrow
    have hrun : (tableOf [x]).length = x.2.outputs.length + 1 := by
      rw [tableOf, flatMap_singleton, length_runOf]
    rw [startAt_of_tables hrows houtputs, take_add_one, hx, toList_some, tableOf,
      flatMap_append, length_append, ← tableOf, ← tableOf, hrun, Nat.zero_add]
    rfl

end Tables

end Description

/-! ## What a description determines -/

theorem Op.name_injective : Function.Injective Op.name := by
  intro a b h
  cases a <;> cases b <;> first | rfl | exact absurd h (by decide)

theorem Component.term?_eq_none_iff (k : Component) : k.term? = none ↔ k.op ≠ .proposition := by
  cases hkind : k.kind <;> simp [Component.term?, Component.proposition?, Component.op, Kind.op, hkind]

structure Component.Alike (k k' : Component) : Prop where
  op : k.op = k'.op
  term : k.term?.map Term.render = k'.term?.map Term.render
  move : ((k.proposition?.bind (·.move)).map Term.render).getD "" =
    ((k'.proposition?.bind (·.move)).map Term.render).getD ""
  goal : k.proposition?.bind (·.goal) = k'.proposition?.bind (·.goal)
  reqTrue : k.reqTrue = k'.reqTrue
  reqFalse : k.reqFalse = k'.reqFalse
  count : k.count = k'.count
  sign : k.sign = k'.sign
  level : k.level = k'.level
  outputs : k.outputs.Perm k'.outputs
  inputs : k.inputs.Perm k'.inputs

structure Network.Alike (net net' : Network) : Prop where
  component : ∀ c, Option.Rel Component.Alike (net.get? c) (net'.get? c)
  bases : net.bases = net'.bases
  transitions : net.transitions = net'.transitions
  driven : ∀ t ∈ net.transitions, net.kind? t = net'.kind? t
  players : net.players = net'.players
  terminal : net.terminal = net'.terminal
  played : ∀ role, ∀ c ∈ net.playing role, net.isRole c role = true ∧ net'.isRole c role = true
  paired : ∀ l ∈ net.legals, net.pairedInput? l = net'.pairedInput? l
  start : net.initialState = net'.initialState

namespace Description

open Network

section Determines

variable {net net' : Network} {d : Description} {c : CompId} {k k' : Component}

section

variable (h : d.Lays net)
include h

theorem Lays.contains : net.contains c ↔ c < d.sizes.components := by
  rw [← mem_ids, h.ids, mem_range]

section

variable (h' : d.Lays net')
include h'

theorem Lays.rows (hk : net.get? c = some k) (hk' : net'.get? c = some k') :
    ∃ start, rowOf start c k = rowOf start c k' ∧ k.outputs.Perm k'.outputs := by
  obtain ⟨start, hrow, hslice, -⟩ := h.row c k hk
  obtain ⟨start', hrow', hslice', -⟩ := h'.row c k' hk'
  have hrows : rowOf start c k = rowOf start' c k' := Option.some.inj (hrow.symm.trans hrow')
  obtain rfl : start = start' := congrArg Row.outputStart hrows
  have hlen : k.outputs.length = k'.outputs.length := congrArg Row.outputs hrows
  have hsorted : (CompId.sorted k.outputs).map some = (CompId.sorted k'.outputs).map some := by
    rw [← hslice, ← hslice', hlen]
  exact ⟨start, hrows, CompId.sorted_eq_sorted_iff.mp (map_injective_iff.mpr (some_injective _) hsorted)⟩

theorem Lays.labels (hk : net.get? c = some k) (hk' : net'.get? c = some k') :
    ∃ label, labelOf net c k = .ok label ∧ labelOf net' c k' = .ok label := by
  obtain ⟨label, hlabel, hof⟩ := h.label c k hk
  obtain ⟨label', hlabel', hof'⟩ := h'.label c k' hk'
  obtain rfl : label = label' := Option.some.inj (hlabel.symm.trans hlabel')
  exact ⟨label, hof, hof'⟩

theorem Lays.op (hk : net.get? c = some k) (hk' : net'.get? c = some k') : k.op = k'.op := by
  obtain ⟨label, hof, hof'⟩ := h.labels h' hk hk'
  exact Op.name_injective ((labelOf_eq_ok hof).2.1.symm.trans (labelOf_eq_ok hof').2.1)

theorem Lays.get? (c : CompId) :
    (∃ k k', net.get? c = some k ∧ net'.get? c = some k') ∨ net.get? c = none ∧ net'.get? c = none := by
  by_cases hc : c < d.sizes.components
  · obtain ⟨k, hk⟩ := contains_iff.mp (h.contains.mpr hc)
    obtain ⟨k', hk'⟩ := contains_iff.mp (h'.contains.mpr hc)
    exact .inl ⟨k, k', hk, hk'⟩
  · refine .inr ⟨?_, ?_⟩
    · rwa [get?_eq_none_iff, ← Bool.not_eq_true, h.contains]
    · rwa [get?_eq_none_iff, ← Bool.not_eq_true, h'.contains]

theorem Lays.op? (c : CompId) : net.op? c = net'.op? c := by
  rcases h.get? h' c with ⟨k, k', hk, hk'⟩ | ⟨hk, hk'⟩
  · rw [op?_of_get? hk, op?_of_get? hk', h.op h' hk hk']
  · rw [Network.op?, Network.op?, hk, hk']

theorem Lays.edgesOut (a b : CompId) : net.edgesOut a b = net'.edgesOut a b := by
  rcases h.get? h' a with ⟨k, k', hk, hk'⟩ | ⟨hk, hk'⟩
  · rw [Network.edgesOut, Network.edgesOut, outputsOf_of_get? hk, outputsOf_of_get? hk']
    obtain ⟨-, -, hout⟩ := h.rows h' hk hk'
    exact hout.count_eq b
  · rw [Network.edgesOut, Network.edgesOut, Network.outputsOf, Network.outputsOf, hk, hk']

theorem Lays.component (hk : net.get? c = some k) (hk' : net'.get? c = some k') : k.Alike k' := by
  obtain ⟨start, hrow, hout⟩ := h.rows h' hk hk'
  obtain ⟨label, hof, hof'⟩ := h.labels h' hk hk'
  obtain ⟨-, -, hterm, hmove, hgoal⟩ := labelOf_eq_ok hof
  obtain ⟨-, -, hterm', hmove', hgoal'⟩ := labelOf_eq_ok hof'
  have hop := h.op h' hk hk'
  refine ⟨hop, ?_, hmove.symm.trans hmove', hgoal.symm.trans hgoal', congrArg Row.reqTrue hrow,
    congrArg Row.reqFalse hrow, congrArg Row.count hrow, congrArg Row.sign hrow, congrArg Row.level hrow, hout,
    perm_iff_count.mpr fun a => ?_⟩
  · have hsame : k.term? = none ↔ k'.term? = none := by
      rw [Component.term?_eq_none_iff, Component.term?_eq_none_iff, hop]
    cases ht : k.term? with
    | none => rw [hsame.mp ht]
    | some t =>
      cases ht' : k'.term? with
      | none => cases ht.symm.trans (hsame.mpr ht')
      | some t' => rw [map_some, map_some, ← hterm t ht, hterm' t' ht']
  · rw [← inputsOf_of_get? hk, ← inputsOf_of_get? hk']
    exact (h.balanced a c).symm.trans ((h.edgesOut h' a c).trans (h'.balanced a c))

theorem Lays.transitionStart_le {s s' : CompId}
    (hs : net.transitions = List.range' s d.sizes.transitions) (hpos : 0 < d.sizes.transitions)
    (hs' : ∀ t, net'.op? t = some .transition → s' ≤ t) : s' ≤ s := by
  have hmem : s ∈ net.transitions := by
    rw [hs, mem_range'_1]
    omega
  obtain ⟨b, -, hkind⟩ := exists_of_mem_right h.driven hmem
  exact hs' s ((h.op? h' s).symm.trans (op?_of_kind? hkind))

end

end

theorem Role.Lays.eq {r : Role} {p : Player} (h : r.Lays p) :
    p = ⟨r.name, runFrom r.inputStart r.moves, runFrom r.legalStart r.moves, runFrom r.goalStart r.goals⟩ := by
  obtain ⟨name, inputs, legals, goals⟩ := p
  rw [Player.mk.injEq]
  exact ⟨h.name.symm, h.inputs, h.legals, h.goals⟩

theorem Lays.transitions_eq (h : d.Lays net) (h' : d.Lays net') : net.transitions = net'.transitions := by
  obtain ⟨s, hs, hfirst⟩ := h.transitions
  obtain ⟨s', hs', hfirst'⟩ := h'.transitions
  rw [hs, hs']
  cases hn : d.sizes.transitions with
  | zero => rfl
  | succ n =>
    have hpos : 0 < d.sizes.transitions := by omega
    have hle := h.transitionStart_le h' hs hpos hfirst'
    have hge := h'.transitionStart_le h hs' hpos hfirst
    rw [Nat.le_antisymm hge hle]

theorem Lays.players_eq (h : d.Lays net) : net.players = d.roles.map fun r => ⟨r.name,
    runFrom r.inputStart r.moves, runFrom r.legalStart r.moves, runFrom r.goalStart r.goals⟩ := by
  refine (forall₂_eq_eq_eq ▸ forall₂_map_right_iff.mpr ?_ : _ = _)
  exact (h.roles.1.imp fun r p hp => hp.eq).flip

/-- Networks with the same description are the same, up to the order in which edges are listed and the names of
roles that have no part in the game. -/
theorem Lays.alike (h : d.Lays net) (h' : d.Lays net') : net.Alike net' := by
  have hbases : net.bases = net'.bases := h.bases.trans h'.bases.symm
  have htransitions := h.transitions_eq h'
  have hplayers : net.players = net'.players := h.players_eq.trans h'.players_eq.symm
  have hterminal : net.terminal = net'.terminal := h.terminal.trans h'.terminal.symm
  refine ⟨fun c => ?_, hbases, htransitions, fun t ht => ?_, hplayers, hterminal, fun role c hc => ?_,
    fun l hl => ?_, h.start.1.trans h'.start.1.symm⟩
  · rcases h.get? h' c with ⟨k, k', hk, hk'⟩ | ⟨hk, hk'⟩
    · rw [hk, hk']
      exact .some (h.component h' hk hk')
    · rw [hk, hk']
      exact .none
  · have hdriven' := h'.driven
    rw [← hbases, ← htransitions] at hdriven'
    obtain ⟨b, hb, hb'⟩ := exists_of_forall₂ h.driven.flip hdriven'.flip t ht
    rw [hb, hb']
  · refine ⟨h.played role c hc, h'.played role c ?_⟩
    unfold playing Network.legals Network.goals at hc ⊢
    rwa [← hbases, ← hplayers, ← hterminal]
  · have haligned' := h'.aligned.forall₂
    rw [Network.legals, ← hplayers] at haligned'
    obtain ⟨i, hi, hi'⟩ := exists_of_forall₂ h.aligned.forall₂ haligned' l hl
    rw [hi, hi']

end Determines

end Description

theorem Network.Arranged.describe {net laid : Network} {d : Description} (h : net.Arranged)
    {level : VerifyLevel} {cap : Nat} (hok : net.describe level cap = .ok (d, laid)) :
    net.reorderComponents = .ok laid ∧ d.Lays laid := by
  obtain ⟨net', hre, hok⟩ := exists_of_bind_eq_ok hok
  obtain ⟨-, -, hok⟩ := exists_of_bind_eq_ok hok
  obtain ⟨d', hd, hok⟩ := exists_of_bind_eq_ok hok
  cases hok
  obtain ⟨hlive, harranged, hruns⟩ := h.reorderComponents hre
  exact ⟨hre, Description.lays_of_ofNetwork hlive harranged hruns hd⟩

namespace Listing

open Network

/-- The description of a compiled network, or of what is left of it without goals or without moves, says where
everything is, and it leaves nothing open but the order in which edges are listed. Numbering the components
in canonical order is done once and for all. -/
theorem lays_of_describe (l : Listing) (hb : l.Balanced) (ha : l.Acyclic) (opts vopts : Options)
    {net variant laid : Network} {d : Description} (h : (l.compile opts).listen.1 = .ok net)
    (hv : variant = net ∨ (net.goalless vopts).listen.1 = .ok variant ∨
      (net.goalsOnly vopts).listen.1 = .ok variant) (level : VerifyLevel) (cap : Nat)
    (hd : variant.describe level cap = .ok (d, laid)) :
    (variant.reorderComponents = .ok laid ∧ d.Lays laid ∧ ∀ other, d.Lays other → laid.Alike other) ∧
      ∀ net₀ net₁ : Network, net₀.reorderComponents = .ok net₁ → net₁.reorderComponents = .ok net₁ := by
  obtain ⟨cut, last, hc⟩ := compiled_of_ok hb ha h
  have harranged : variant.Arranged := by
    rcases hv with rfl | hv | hv
    · exact hc.arranged
    · exact hc.finished.goalless_arranged hc.arranged vopts #[] variant (by rwa [← Observed.listen_eq])
    · exact hc.finished.goalsOnly_arranged hc.arranged vopts #[] variant (by rwa [← Observed.listen_eq])
  obtain ⟨hre, hlays⟩ := harranged.describe hd
  exact ⟨⟨hre, hlays, fun _ hother => hlays.alike hother⟩, fun _ _ => reorderComponents_self⟩

theorem lays_of_describe_lamp : ∃ net variant d laid, (lamp.compile {}).listen.1 = .ok net ∧
    (net.goalless {}).listen.1 = .ok variant ∧ variant.describe .full 0 = .ok (d, laid) ∧
    d.roles = [⟨0, "hand", some 1, some 6, none, 1, 0⟩] ∧ d.Lays laid := by
  have hok : (do
      let net ← (lamp.compile {}).listen.1
      let variant ← (net.goalless {}).listen.1
      let x ← variant.describe .full 0
      return x.1.roles : Checked (List Description.Role)) =
        .ok [⟨0, "hand", some 1, some 6, none, 1, 0⟩] := by decide +kernel
  obtain ⟨net, hnet, hok⟩ := exists_of_bind_eq_ok hok
  obtain ⟨variant, hvariant, hok⟩ := exists_of_bind_eq_ok hok
  obtain ⟨⟨d, laid⟩, hd, hok⟩ := exists_of_bind_eq_ok hok
  exact ⟨net, variant, d, laid, hnet, hvariant, hd, Except.ok.inj hok,
    (lays_of_describe lamp lamp_balanced lamp_acyclic {} {} hnet (.inr (.inl hvariant)) .full 0 hd).1.2.1⟩

end Listing

end GameNet
