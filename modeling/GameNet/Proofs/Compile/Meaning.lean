import GameNet.Proofs.Compile.Verified
import GameNet.Proofs.Listing.Index

/-!
Compiled networks mean what their listings mean.

`Origin` collects the networks between a listing and its initial state.
-/

namespace GameNet

open List Option

namespace Network

/-! ## What is without inputs -/

section Leaves

variable {net net' : Network} {init c : CompId} {k : Component}

theorem one_le_seedCount (hi : k.inputs = []) :
    1 ≤ (seedCount k).count ↔ 0 < k.count ∧ k.op ≠ .proposition := by
  have hplain : 1 ≤ (if k.count = unset then { k with count := 0 } else k).count ↔ 0 < k.count := by
    split
    · next hunset =>
      change (1 : Int) ≤ 0 ↔ 0 < k.count
      rw [hunset]
      decide
    · omega
  cases hop : k.op with
  | constant =>
    simp only [seedCount, hop]
    split
    · next hpos => exact ⟨fun _ => ⟨hpos, by decide⟩, fun _ => Int.le_refl 1⟩
    · next hpos => exact ⟨fun h => absurd h (by decide), fun h => absurd h.1 hpos⟩
  | proposition => simp [seedCount, hop, hi]
  | and | or | not | transition => simpa [seedCount, hop] using hplain

/-- Once the initial state is derived, what is without inputs has the value that its sort and its listed
count give it. -/
theorem Derived.valueAt_of_leaf (h : Derived net init net') (hf : net.Formed) (hfit : net.Fitted)
    (hk : net.get? c = some k) (hi : k.inputs = []) (hne : c ≠ init) (htell : net'.Telling c) :
    net'.valueAt c = k.op.ownValue k.count := by
  obtain ⟨n, hk'⟩ := h.recounts.get? (show Network.get? { net with initialState := net'.initialState } c =
    some k from hk)
  have hstd : (k.counting n).Standard := (h.formed hf).standard (h.fitted hfit) c _ hk'
  have hn : net'.countAt c = n := countAt_of_get? hk'
  rw [valueAt_of_get? hk', Component.value, hstd.reqTrue, hstd.sign]
  change (decide ((if k.op = .and then (k.inputs.length : Int) else 1) ≤ n) !=
    decide ((if k.op = .not then (-1 : Int) else 1) < 0)) = _
  by_cases hgate : k.op = .and ∨ k.op = .or
  · have hout : k.outputs ≠ [] := by
      rcases htell with ⟨op, hop, hg⟩ | ⟨-, -, ho⟩
      · rw [op?_of_get? hk', Option.some.injEq] at hop
        subst hop
        rcases hgate with hop | hop <;>
          exact absurd hg (by rw [show (k.counting n).op = _ from hop]; decide)
      · rwa [outputsOf_of_get? hk'] at ho
    have hzero := hn.symm.trans (h.rest c k hk hi hgate hout)
    rcases hgate with hop | hop <;> simp [hop, hi, hzero, Op.ownValue]
  · obtain ⟨hand, hor⟩ := not_or.mp hgate
    have hcount := hn.symm.trans (h.source c k hk hi hne hand hor)
    have hone : (1 ≤ n) ↔ 0 < k.count ∧ k.op ≠ .proposition := hcount ▸ one_le_seedCount hi
    cases hop : k.op <;> simp_all [Op.ownValue]

end Leaves

end Network

namespace Listing

open Network

/-! ## Rows and their components -/

section Rows

variable {l : Listing} {m : Moment} {flat net cut : Network} {pairs : List (CompId × CompId)} {c : CompId}
  {r : RawComponent} {role : PropRole}

def Lists (l : Listing) (c : CompId) (role : PropRole) : Prop :=
  ∃ r text, l.row? c = some r ∧ r.op = .proposition ∧ r.label = some (role, text)

theorem Placed.isRole_iff_lists (h : Placed l.roles l.components.toList flat) :
    flat.isRole c role ↔ l.Lists c role := by
  rw [isRole_iff]
  constructor
  · rintro ⟨p, hp, rfl⟩
    obtain ⟨r, part, text, hr, hop, hlabel, hplain⟩ := h.plain hp
    exact ⟨r, text, hr, hop, hplain.role ▸ hlabel⟩
  rintro ⟨r, text, hr, hop, hlabel⟩
  obtain ⟨kind, hkind, hk⟩ := h.get?_of_row? hr
  obtain ⟨hkop, -, hplain⟩ := kindOf_plain hkind
  cases hp : kind with
  | proposition p =>
    obtain ⟨part, text', hlabel', hrole⟩ := hplain p hp
    obtain ⟨rfl, -⟩ := Prod.mk.inj (Option.some.inj (hlabel.symm.trans hlabel'))
    refine ⟨p, ?_, hrole.role⟩
    rw [proposition?_of_get? hk, RawComponent.place, hp]
    rfl
  | and | or | not | transition | constant => rw [hp, hop] at hkop; cases hkop

section

variable (h : Built l flat pairs net) (hcut : Severed net pairs cut)
include h hcut

theorem Built.isRole_iff_lists (hl : role ≠ .legal) (ho : role ≠ .other) (hr : l.row? c = some r) :
    cut.isRole c role ↔ l.Lists c role := by
  obtain ⟨kind, -, hk⟩ := h.placed.get?_of_row? hr
  have hcap : c ≠ (flat.mapComponents Component.fitThresholds).capacity := by
    rw [Network.capacity, mapComponents, Array.size_map]
    exact Nat.ne_of_lt (lt_capacity_of_get? hk)
  have hfit : (flat.mapComponents Component.fitThresholds).isRole c role = flat.isRole c role := by
    rw [Bool.eq_iff_iff, isRole_iff, isRole_iff, proposition?_fitted]
  rw [hcut.isRole, h.recorded.isRole_iff hl ho, hfit, h.placed.isRole_iff_lists]
  exact ⟨fun hor => hor.resolve_right fun hown => hcap hown.2.2, .inl⟩

theorem Built.op_count_of_row? {k : Component}
    (hk : cut.get? c = some k) (hr : l.row? c = some r) : k.op = r.op ∧ k.count = r.count.toInt := by
  obtain ⟨k₀, kind, hop, rfl, ⟨r', kind₀, hr', hkind, rfl⟩ | ⟨hnone, -⟩⟩ := h.component hcut hk
  · obtain rfl : r = r' := Option.some.inj (hr.symm.trans hr')
    refine ⟨hop.trans (kindOf_plain hkind).1, ?_⟩
    change (r.place kind₀).fitThresholds.count = _
    unfold Component.fitThresholds
    split <;> rfl
  · rw [hr] at hnone
    cases hnone

theorem Built.init_of_row?_none (hc : cut.contains c) (hr : l.row? c = none) : net.init = some c := by
  obtain ⟨k, hk⟩ := contains_iff.mp hc
  rw [hcut.get?] at hk
  obtain ⟨k₁, hk₁, -⟩ := map_eq_some_iff.mp hk
  rw [h.recorded.get?] at hk₁
  obtain ⟨k₂, hk₂, -⟩ := map_eq_some_iff.mp hk₁
  rw [withInit, get?_mapComponents, h.placed.get?_of_row?_none hr] at hk₂
  split at hk₂
  · next hown =>
    obtain ⟨i, hi, hrole | ⟨-, rfl⟩⟩ := h.recorded.init
    · rw [hown.1] at hrole
      cases hrole
    · rw [hi, hown.2]
  · cases hk₂

end

theorem Built.init_of_lists (h : Built l flat pairs net) (hlists : l.Lists c .init) : net.init = some c := by
  have hmem : c ∈ (flat.mapComponents Component.fitThresholds).withRole .init := by
    rw [Network.mem_withRole, isRole_iff, proposition?_fitted, ← isRole_iff, h.placed.isRole_iff_lists]
    exact hlists
  obtain ⟨i, hi, hrole | ⟨hrole, -⟩⟩ := h.recorded.init
  · rw [hrole, mem_singleton] at hmem
    rw [hi, hmem]
  · rw [hrole] at hmem
    cases hmem

theorem given?_of_lists (hlists : l.Lists c role) (hr : l.row? c = some r) :
    m.given? c r = m.givenTo? c role := by
  obtain ⟨r', text, hr', hop, hlabel⟩ := hlists
  obtain rfl : r = r' := Option.some.inj (hr.symm.trans hr')
  rw [Moment.given?, hop, hlabel]

theorem given?_eq_none (hr : l.row? c = some r) (hb : ¬ l.Lists c .base) (hi : ¬ l.Lists c .input)
    (hn : ¬ l.Lists c .init) : m.given? c r = none := by
  unfold Moment.given?
  split
  · next role text hop hlabel =>
    have hlists : l.Lists c role := ⟨r, text, hr, hop, hlabel⟩
    cases role with
    | base => exact absurd hlists hb
    | input => exact absurd hlists hi
    | init => exact absurd hlists hn
    | legal | goal | terminal | other => rfl
  · rfl

end Rows

/-! ## From a listing to its initial state -/

/-- The values of all rows. What has no row is an init that the listing leaves out. -/
def values (l : Listing) (m : Moment) (c : CompId) : Bool :=
  (l.row? c).elim m.begins fun _ => l.value m c

structure Origin (l : Listing) (flat : Network) (pairs : List (CompId × CompId)) (net cut lead : Network)
    (init : CompId) (derived : Network) : Prop where
  balanced : l.Balanced
  acyclic : l.Acyclic
  undriven : l.InitUndriven
  built : Built l flat pairs net
  severed : Severed net pairs cut
  formed : cut.Formed
  led : Led cut lead
  derives : Derived lead init derived
  constants : ∀ c, derived.op? c = some .constant → derived.inputsOf c = []

section Origin

variable {l : Listing} {m : Moment} {flat net cut lead derived : Network} {pairs : List (CompId × CompId)}
  {init c : CompId} {r : RawComponent} {role : PropRole}

theorem values_of_row? (hr : l.row? c = some r) : l.values m c = l.value m c := by rw [values, hr]; rfl

section

variable (h : Origin l flat pairs net cut lead init derived)
include h

theorem Origin.leadFormed : lead.Formed :=
  h.led.formed h.formed

theorem Origin.derivedFormed : derived.Formed :=
  h.derives.formed h.leadFormed

theorem Origin.init_eq : net.init = some init := by
  rw [← field_of_parts Network.init h.severed.parts, ← field_of_parts Network.init h.led.sound.parts]
  exact h.derives.named

theorem Origin.bases_eq : derived.bases = pairs.map (·.2) := by
  rw [h.derives.field Network.bases, field_of_parts Network.bases h.led.sound.parts,
    field_of_parts Network.bases h.severed.parts,
    h.built.recorded.bases_eq]

theorem Origin.kind? (hc : cut.contains c) (hc' : derived.contains c) : derived.kind? c = cut.kind? c := by
  have hlive : lead.contains c = true := (h.derives.recounts.contains c).symm.trans hc'
  exact (h.derives.recounts.kind? c).trans (h.led.sound.keepsAll.kind? hc hlive)

theorem Origin.isRole_iff_lists (hc : cut.contains c) (hc' : derived.contains c) (hl : role ≠ .legal)
    (ho : role ≠ .other) (hr : l.row? c = some r) : derived.isRole c role ↔ l.Lists c role := by
  rw [isRole_of_kind? (h.kind? hc hc'), h.built.isRole_iff_lists h.severed hl ho hr]

theorem Origin.mem_bases_iff : c ∈ derived.bases ↔ l.Lists c .base := by
  rw [h.bases_eq, h.built.recorded.driven, Network.mem_withRole, isRole_iff, proposition?_fitted, ← isRole_iff,
    h.built.placed.isRole_iff_lists]

theorem Origin.eq_init_iff (hr : l.row? c = some r) : c = init ↔ l.Lists c .init := by
  constructor
  · rintro rfl
    have hrole := h.formed.init c ((field_of_parts Network.init h.severed.parts).trans h.init_eq)
    exact (h.built.isRole_iff_lists h.severed (by decide) (by decide) hr).mp hrole
  · exact fun hlists => Option.some.inj ((h.built.init_of_lists hlists).symm.trans h.init_eq)

theorem Origin.inputsOf_cut (hb : ¬ l.Lists c .base) : cut.inputsOf c = l.inputsOf c := by
  rw [h.severed.inputsOf, ← h.bases_eq, if_neg (fun hmem => hb (h.mem_bases_iff.mp hmem)), h.built.inputsOf]

end

theorem Built.lists_iff (h : Built l flat pairs net) : l.Lists c role ↔ c ∈ l.withRole role := by
  rw [← h.placed.isRole_iff_lists, ← h.isRole_iff_mem, isRole_iff, isRole_iff, proposition?_fitted]

theorem Built.mem_withRole (h : Built l flat pairs net) (hr : net.isRole c role) (hl : role ≠ .legal)
    (ho : role ≠ .other) (hi : role ≠ .init) : c ∈ l.withRole role :=
  h.isRole_iff_mem.mp (((h.recorded.isRole_iff hl ho).mp hr).resolve_right fun hinit => hi hinit.1)

theorem Lists.unique {role' : PropRole} (h : l.Lists c role) (h' : l.Lists c role') : role = role' := by
  obtain ⟨r, text, hr, -, hlabel⟩ := h
  obtain ⟨r', text', hr', -, hlabel'⟩ := h'
  obtain rfl : r = r' := Option.some.inj (hr.symm.trans hr')
  exact (Prod.mk.inj (Option.some.inj (hlabel.symm.trans hlabel'))).1

theorem exists_row_of_inputsOf (h : l.inputsOf c ≠ []) : ∃ r, l.row? c = some r := by
  cases hr : l.row? c with
  | none => exact absurd (by rw [inputsOf, hr]; rfl) h
  | some r => exact ⟨r, rfl⟩

theorem exists_row_of_mem_inputsOf {a : CompId} (hb : l.Balanced) (ha : a ∈ l.inputsOf c) :
    ∃ r, l.row? a = some r := by
  have hcount := hb a c
  cases hr : l.row? a with
  | none =>
    rw [outputsOf, hr, elim_none, count_nil] at hcount
    exact absurd ha (count_eq_zero.mp hcount.symm)
  | some r => exact ⟨r, rfl⟩

theorem Lists.value_eq {v : Bool} (h : l.Lists c role) (hb : l.Balanced) (ha : l.Acyclic)
    (hv : m.givenTo? c role = some v) : l.values m c = v := by
  obtain ⟨r, hr⟩ : ∃ r, l.row? c = some r := h.imp fun r hr => hr.choose_spec.1
  rw [values_of_row? hr, Listing.value_eq hb ha hr, given?_of_lists h hr, hv]
  rfl

section

variable (h : Origin l flat pairs net cut lead init derived)
include h

theorem Origin.inputsOf_init : cut.inputsOf init = [] := by
  cases hr : l.row? init with
  | none =>
    rw [h.inputsOf_cut, inputsOf, hr]
    · rfl
    rintro ⟨r, _, hr', -⟩
    rw [hr] at hr'
    cases hr'
  | some r =>
    have hlists := (h.eq_init_iff hr).mp rfl
    rw [h.inputsOf_cut fun hb => by cases hlists.unique hb]
    exact h.undriven init (h.built.lists_iff.mp hlists)

/-- The values of the rows go together in the network that compiling starts from. -/
theorem Origin.obeys (m : Moment) : cut.Obeys (l.values m) := by
  intro c op hop hne
  have hbase : ¬ l.Lists c .base := by
    intro hlists
    rw [h.severed.inputsOf, ← h.bases_eq, if_pos (h.mem_bases_iff.mpr hlists)] at hne
    exact hne rfl
  rw [h.inputsOf_cut hbase] at hne ⊢
  have hinput : ¬ l.Lists c .input := by
    intro hlists
    have hnil := h.built.recorded.undriven c
      (Network.mem_withRole.mpr (h.built.isRole_iff_mem.mpr (h.built.lists_iff.mp hlists)))
    rw [← h.built.recorded.inputsOf, h.built.inputsOf] at hnil
    exact hne hnil
  have hinit : ¬ l.Lists c .init := fun hlists => hne (h.undriven c (h.built.lists_iff.mp hlists))
  obtain ⟨r, hr⟩ := exists_row_of_inputsOf hne
  have hempty : ¬ r.inputs.isEmpty = true := by
    rw [List.isEmpty_iff]
    intro hnil
    rw [inputsOf, hr, elim_some, hnil] at hne
    exact hne rfl
  obtain ⟨k, hk, rfl⟩ := map_eq_some_iff.mp hop
  rw [values_of_row? hr, value_eq h.balanced h.acyclic hr, given?_eq_none hr hbase hinput hinit,
    getD_none, if_neg hempty, (h.built.op_count_of_row? h.severed hk hr).1]
  refine r.op.read_of_forall_eq fun a ha => ?_
  obtain ⟨ra, hra⟩ := exists_row_of_mem_inputsOf h.balanced ha
  exact (values_of_row? hra).symm

/-- And so they do in the network of which the initial state is derived, as far as that can be told. -/
theorem Origin.exists_values (m : Moment) : ∃ w, lead.Obeys w ∧ ∀ c, lead.Telling c → w c = l.values m c := by
  obtain ⟨w, hw, hwv⟩ := h.led.sound.values _ (h.obeys m)
  exact ⟨w, hw, fun c hc => hwv c (h.led.sound.telling hc).observable hc.contains⟩

theorem Origin.leaf {k : Component} (hk : lead.get? c = some k) (hi : k.inputs = [])
    (hr : l.row? c = some r) : k.op = r.op ∧ (k.op ≠ .and → k.count = r.count.toInt) := by
  have hlive := contains_of_get? hk
  obtain ⟨hc, hnil⟩ := h.led.sound.source hlive ((inputsOf_of_get? hk).trans hi)
  obtain ⟨k₀, hk₀⟩ := contains_iff.mp hc
  obtain ⟨hop, hcount⟩ := h.built.op_count_of_row? h.severed hk₀ hr
  have hsame := h.led.sound.op? hc hlive
  rw [op?_of_get? hk, op?_of_get? hk₀, Option.some.injEq] at hsame
  refine ⟨hsame.trans hop, fun hand => ?_⟩
  rcases (h.led.sound.leaf c hc hlive hnil).2 with hbare | ⟨hand₀, -⟩
  · rw [bare?, bare?, hk, hk₀] at hbare
    exact (Component.count_of_bare (Option.some.inj hbare)).trans hcount
  · rw [op?_of_get? hk₀, Option.some.injEq] at hand₀
    exact absurd (hsame.trans hand₀) hand

theorem Origin.isRole_init : derived.isRole init .init :=
  h.derivedFormed.init init ((h.derives.field Network.init).trans h.derives.named)

theorem Origin.values_of_leaf (m : Moment) (hc : lead.Telling c) (hi : lead.inputsOf c = []) : l.values m c =
      if c ∈ derived.bases then m.on c else if derived.isRole c .input = true then m.does c
      else if c = init then m.begins else derived.valueAt c := by
  have hb := h.balanced
  have ha := h.acyclic
  obtain ⟨hcut, hnil⟩ := h.led.sound.source hc.contains hi
  have hlive : derived.contains c = true := (h.derives.recounts.contains c).trans hc.contains
  have hrow : c ≠ init → ∃ r, l.row? c = some r := by
    intro hne
    cases hr : l.row? c with
    | none => exact absurd (Option.some.inj ((h.built.init_of_row?_none h.severed hcut hr).symm.trans h.init_eq)) hne
    | some r => exact ⟨r, rfl⟩
  by_cases hbase : c ∈ derived.bases
  · rw [if_pos hbase]
    exact (h.mem_bases_iff.mp hbase).value_eq hb ha rfl
  rw [if_neg hbase]
  by_cases hinput : derived.isRole c .input = true
  · obtain ⟨r, hr⟩ := hrow fun hne => by
      rw [hne] at hinput
      cases isRole_unique hinput h.isRole_init
    rw [if_pos hinput]
    exact ((h.isRole_iff_lists hcut hlive (by decide) (by decide) hr).mp hinput).value_eq hb ha rfl
  rw [if_neg hinput]
  by_cases hne : c = init
  · rw [if_pos hne]
    cases hr : l.row? c with
    | none => rw [values, hr]; rfl
    | some r => exact ((h.eq_init_iff hr).mp hne).value_eq hb ha rfl
  rw [if_neg hne]
  -- nothing is given, so the row and the component have a value of their own
  obtain ⟨r, hr⟩ := hrow hne
  obtain ⟨k, hk⟩ := contains_iff.mp hc.contains
  have hki : k.inputs = [] := (inputsOf_of_get? hk).symm.trans hi
  have hnobase := mt h.mem_bases_iff.mpr hbase
  have hempty : r.inputs.isEmpty = true := by
    rw [h.inputsOf_cut hnobase, inputsOf, hr, elim_some, map_eq_nil_iff] at hnil
    rw [hnil]
    rfl
  have hnone : m.given? c r = none := given?_eq_none hr hnobase
    (mt (h.isRole_iff_lists hcut hlive (by decide) (by decide) hr).mpr hinput) (mt (h.eq_init_iff hr).mpr hne)
  have htell : derived.Telling c := h.derives.recounts.telling.mpr hc
  obtain ⟨hop, hcount⟩ := h.leaf hk hki hr
  rw [h.derives.valueAt_of_leaf h.leadFormed h.led.fitted hk hki hne htell, values_of_row? hr,
    value_eq hb ha hr, hnone, getD_none, if_pos hempty, ← hop]
  by_cases hand : k.op = .and
  · rw [hand]
    rfl
  · rw [hcount hand]

end

/-! ## Answers -/

def Moment.during (p : Position) : Moment := ⟨false, p.on, p.does⟩

def Permits (l : Listing) (p : Position) : Prop := ∀ i ∈ l.withRole .input, p.does i = true →
  ∃ c ∈ l.withRole .legal, l.inputFor? c = some i ∧ l.value (.quiet p.on) c = true

theorem permits_quiet (l : Listing) (p : Position) : l.Permits p.quiet :=
  fun _ _ hdoes => absurd hdoes Bool.false_ne_true

section

variable (h : Built l flat pairs net) (hc : c ∈ l.withRole .legal)
include h hc

theorem Built.inputFor?_iff {i : CompId} :
    l.inputFor? c = some i ↔ i ∈ l.withRole .input ∧ l.moveOf? i = l.moveOf? c := by
  obtain ⟨r, m, -, hmove, -⟩ := h.exists_move hc
  have hfound : ∀ {j}, l.inputFor? c = some j → j ∈ l.withRole .input ∧ l.moveOf? j = l.moveOf? c := by
    intro j hj
    rw [inputFor?, hmove, bind_some] at hj
    have hsame := find?_some hj
    exact ⟨mem_of_find?_eq_some hj, (beq_iff_eq.mp hsame).trans hmove.symm⟩
  refine ⟨hfound, fun hi => ?_⟩
  cases hj : l.inputFor? c with
  | none =>
    rw [inputFor?, hmove, bind_some, find?_eq_none] at hj
    exact absurd (beq_iff_eq.mpr (hi.2.trans hmove)) (hj i hi.1)
  | some j =>
    have hsame := ((h.counterpart?_iff hc).mpr (hfound hj)).symm.trans ((h.counterpart?_iff hc).mpr hi)
    exact hsame

theorem Built.counterpart?_eq : (flat.mapComponents Component.fitThresholds).counterpart? c = l.inputFor? c :=
  Option.ext fun i => by rw [h.counterpart?_iff hc, h.inputFor?_iff hc]

theorem Built.pairedInput?_eq : net.pairedInput? c = l.inputFor? c := by
  refine Option.ext fun i => ?_
  rw [h.recorded.pairedInput?_iff h.placed.unrecorded, h.isRole_iff_mem, h.counterpart?_eq hc]
  exact and_iff_right hc

end

section

variable (h : Origin l flat pairs net cut lead init derived)
include h

theorem Origin.players : derived.players = net.players := by
  rw [h.derives.field Network.players, field_of_parts Network.players h.led.sound.parts,
    field_of_parts Network.players h.severed.parts]

theorem Origin.mem_withRole_input (hi : derived.isRole c .input) : c ∈ l.withRole .input := by
  have hcut := h.led.sound.keepsAll.isRole_of ((isRole_of_kind? (h.derives.recounts.kind? c) _).symm.trans hi)
  rw [h.severed.isRole] at hcut
  exact h.built.mem_withRole hcut (by decide) (by decide) (by decide)

theorem Origin.pairedInput? {i : CompId}
    (hc : c ∈ l.withRole .legal) (hi : l.inputFor? c = some i) : derived.pairedInput? c = some i := by
  have hpaired := (h.built.pairedInput?_eq hc).trans hi
  have hlegal : c ∈ derived.legals := by
    obtain ⟨hrole, hcounter⟩ := (h.built.recorded.pairedInput?_iff h.built.placed.unrecorded).mp hpaired
    rw [Network.legals, h.players]
    exact (h.built.recorded.mem_legals h.built.placed.unrecorded).mpr ⟨hrole, by rw [hcounter]; rfl⟩
  have hlive := contains_of_isRole (h.derivedFormed.legal c hlegal).1
  have hcut : cut.contains c = true := by
    have hparts : cut.legals = derived.legals := by
      rw [Network.legals, Network.legals, h.players, field_of_parts Network.players h.severed.parts]
    exact contains_of_isRole (h.formed.legal c (hparts ▸ hlegal)).1
  rw [pairedInput?_of_kind? (h.kind? hcut hlive), pairedInput?_of_kind? (h.severed.kind? c), hpaired]

theorem Origin.tallied : derived.Tallied ∧ derived.initialState = lead.transitions.map
      (lead.eval fun c => if c = init then true else derived.valueAt c) := by
  refine h.derives.start ?_ (fun c hop => ?_) (h.leadFormed.standard h.led.fitted)
  · refine h.led.sound.keepsAll.inputsOf h.inputsOf_init (contains_of_isRole (h.formed.init init ?_))
    exact (field_of_parts Network.init h.severed.parts).trans h.init_eq
  · have hop' : derived.op? c = some .constant := (h.derives.recounts.op? c).trans hop
    exact (h.derives.recounts.inputsOf c).symm.trans (h.constants c hop')

/-- Once the initial state is derived, a network answers what the rows say. -/
theorem Origin.answers : derived.Answers l.Permits fun p => l.values (.during p) where
  coherent := h.tallied.1.coherent (h.derivedFormed.standard (h.derives.fitted h.led.fitted))
  rested := h.derives.rested h.led.fitted
  lawful := by
    refine ⟨fun p _ => l.permits_quiet p, fun p hp i hi hdoes => ?_⟩
    obtain ⟨c, hc, hfor, hvalue⟩ := hp i (h.mem_withRole_input hi) hdoes
    refine ⟨c, h.pairedInput? hc hfor, ?_⟩
    obtain ⟨r, -, hr, -⟩ := h.built.lists_iff.mpr hc
    exact (values_of_row? hr).trans hvalue
  fits p _ := by
    obtain ⟨w, hw, hwv⟩ := h.exists_values (.during p)
    refine ⟨w, ⟨fun c op hop hi => ?_, fun c hc hi => ?_⟩, fun c op hop hg => ?_⟩
    · rw [h.derives.recounts.inputsOf] at hi ⊢
      exact hw c op ((h.derives.recounts.op? c).symm.trans hop) hi
    · have htell : lead.Telling c := h.derives.recounts.telling.mp hc
      rw [hwv c htell, h.values_of_leaf (.during p) htell ((h.derives.recounts.inputsOf c).symm.trans hi),
        source]
      congr 2
      split
      · next hinit => rw [hinit, valueAt_of_countAt h.derivedFormed h.isRole_init h.derives.off]; rfl
      · rfl
    · exact hwv c (.inl ⟨op, (h.derives.recounts.op? c).symm.trans hop, hg⟩)

theorem Origin.stateAfter_eq {x : CompId × CompId}
    (hx : x ∈ pairs) (m : Moment) : l.stateAfter m x.2 = l.values m x.1 := by
  have hin : l.inputsOf x.2 = [x.1] := by
    rw [← h.built.inputsOf, h.built.recorded.inputsOf, (h.built.recorded.drives x hx).1]
  obtain ⟨r, hr⟩ := exists_row_of_mem_inputsOf h.balanced (hin ▸ mem_singleton_self x.1)
  rw [stateAfter, hin, any_cons, any_nil, Bool.or_false, values_of_row? hr]

theorem Origin.stateAfter_of_driven {b t : CompId}
    (ht : net.kind? t = some (.transition (some b))) (m : Moment) : l.stateAfter m b = l.values m t := by
  obtain ⟨x, hx, rfl⟩ := mem_map.mp (h.built.recorded.mem_of_transition h.built.placed.unrecorded
    (op?_of_kind? ht))
  have hsame := (h.built.recorded.kind?_of_mem hx).symm.trans ht
  rw [Option.some.injEq, Kind.transition.injEq, Option.some.injEq] at hsame
  rw [← hsame]
  exact h.stateAfter_eq hx m

/-- The initial state that is derived is the one that the rows give. -/
theorem Origin.start : derived.initialState = derived.bases.map l.initialState := by
  obtain ⟨w, hw, hwv⟩ := h.exists_values ⟨true, fun _ => false, fun _ => false⟩
  have hlead : lead.transitions = pairs.map (·.1) := by
    rw [field_of_parts Network.transitions h.led.sound.parts,
      field_of_parts Network.transitions h.severed.parts, h.built.recorded.transitions_eq]
  rw [h.tallied.2, hlead, h.bases_eq, List.map_map, List.map_map]
  refine map_congr_left fun x hx => ?_
  have hop : lead.op? x.1 = some .transition :=
    h.leadFormed.op?_of_transition (hlead ▸ mem_map_of_mem hx)
  -- bases and inputs are stored as false, and no base or input is init
  have hoff : ∀ {d role}, derived.isRole d role = true → role ≠ .init → derived.countAt d = 0 →
      (if d = init then true else derived.valueAt d) = false := by
    intro d role hrole hne hzero
    rw [if_neg, valueAt_of_countAt h.derivedFormed hrole hzero]
    rintro rfl
    exact hne (isRole_unique hrole h.isRole_init)
  have heval := hw.eval_eq h.leadFormed.balanced h.leadFormed.acyclic
    (σ := fun c => if c = init then true else derived.valueAt c) (fun d hd hi => ?_) hop rfl
  · rw [Function.comp_apply, Function.comp_apply, heval, hwv x.1 (.inl ⟨_, hop, rfl⟩), initialState,
      h.stateAfter_eq hx]
  rw [hwv d hd, h.values_of_leaf _ hd hi]
  split
  · next hb =>
    exact (hoff (h.derivedFormed.base d hb).1 (by decide) (h.derives.unlit h.leadFormed d hb)).symm
  split
  · next hinput => exact (hoff hinput (by decide) ((h.derives.seeded h.leadFormed).input d hinput)).symm
  · rfl

end

end Origin

end Listing

end GameNet
