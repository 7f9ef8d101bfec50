import GameNet.Proofs.Compile.Folds

/-!
The same network under other names.

Scheduling, sorting and renumbering change names, levels and the order of lists, and nothing that matters
for a game.
-/

namespace GameNet

open List

def Kind.rename (f : CompId → CompId) : Kind → Kind
  | .proposition p => .proposition
      { p with pairedInput := p.pairedInput.map f, pairedLegal := p.pairedLegal.map f }
  | .transition base => .transition (base.map f)
  | kind => kind

def Component.rename (f : CompId → CompId) (k : Component) : Component :=
  { k with kind := k.kind.rename f, inputs := k.inputs.map f, outputs := k.outputs.map f }

@[simp] theorem Kind.op_rename (f : CompId → CompId) (kind : Kind) : (kind.rename f).op = kind.op := by
  cases kind <;> rfl

theorem Kind.rename_id (kind : Kind) : kind.rename id = kind := by
  cases kind <;> simp [Kind.rename]

theorem Kind.rename_rename (f g : CompId → CompId) (kind : Kind) :
    (kind.rename f).rename g = kind.rename (g ∘ f) := by
  cases kind <;> simp [Kind.rename]

namespace Component

variable (f : CompId → CompId) (k : Component)

@[simp] theorem op_rename : (k.rename f).op = k.op := Kind.op_rename f k.kind

theorem rename_id : k.rename id = k := by
  simp only [rename, Kind.rename_id, map_id]

theorem rename_rename (g : CompId → CompId) : (k.rename f).rename g = k.rename (g ∘ f) := by
  simp only [rename, Kind.rename_rename, map_map]

theorem proposition?_rename : (k.rename f).proposition? = k.proposition?.map fun p =>
    { p with pairedInput := p.pairedInput.map f, pairedLegal := p.pairedLegal.map f } := by
  unfold proposition? rename
  cases k.kind <;> rfl

end Component

namespace Network

structure Renames (f : CompId → CompId) (net net' : Network) : Prop where
  injective : Function.Injective f
  component : ∀ c k, net.get? c = some k → ∃ level, net'.get? (f c) = some { k.rename f with level }
  onto : ∀ d, net'.contains d = true → ∃ c, net.contains c = true ∧ d = f c
  roles : net'.roles = net.roles
  bases : net'.bases.Perm (net.bases.map f)
  /-- the transitions follow their bases -/
  driven : ∀ R : CompId → CompId → Prop,
    List.Forall₂ (fun b t => R (f b) (f t)) net.bases net.transitions →
      List.Forall₂ R net'.bases net'.transitions
  /-- and so does the initial state -/
  start : ∀ R : CompId → Bool → Prop, List.Forall₂ (fun b v => R (f b) v) net.bases net.initialState →
    List.Forall₂ R net'.bases net'.initialState
  inputs : ∀ i, i ∈ net'.inputs ↔ ∃ j ∈ net.inputs, i = f j
  players : List.Forall₂ (fun p p' => p'.name = p.name ∧ p'.legals.Perm (p.legals.map f) ∧
    p'.goals = p.goals.map f) net.players net'.players
  terminal : net'.terminal = f net.terminal
  init : net'.init = net.init.map f

section Renames

variable {f : CompId → CompId} {net net' : Network} {c d : CompId} {k k' : Component}

theorem Renames.trans {g : CompId → CompId} {net'' : Network} (h : Renames f net net')
    (h' : Renames g net' net'') : Renames (g ∘ f) net net'' where
  injective := h'.injective.comp h.injective
  component c k hk := by
    obtain ⟨level, hk'⟩ := h.component c k hk
    obtain ⟨level', hk''⟩ := h'.component (f c) _ hk'
    refine ⟨level', hk''.trans ?_⟩
    rw [← Component.rename_rename]
    rfl
  onto d hd := by
    obtain ⟨c', hc', rfl⟩ := h'.onto d hd
    obtain ⟨c, hc, rfl⟩ := h.onto c' hc'
    exact ⟨c, hc, rfl⟩
  roles := h'.roles.trans h.roles
  bases := by
    rw [← map_map]
    exact h'.bases.trans (h.bases.map g)
  driven R hR := h'.driven R (h.driven (fun b t => R (g b) (g t)) hR)
  start R hR := h'.start R (h.start (fun b v => R (g b) v) hR)
  inputs i := by
    rw [h'.inputs]
    constructor
    · rintro ⟨j, hj, rfl⟩
      obtain ⟨i, hi, rfl⟩ := (h.inputs j).mp hj
      exact ⟨i, hi, rfl⟩
    · rintro ⟨j, hj, rfl⟩
      exact ⟨f j, (h.inputs _).mpr ⟨j, hj, rfl⟩, rfl⟩
  players := by
    refine (forall₂_iff_get.mpr ⟨h.players.length_eq.trans h'.players.length_eq, ?_⟩)
    intro i hi hi''
    have hi' : i < net'.players.length := h.players.length_eq ▸ hi
    obtain ⟨hn, hl, hg⟩ := h.players.get hi hi'
    obtain ⟨hn', hl', hg'⟩ := h'.players.get hi' hi''
    refine ⟨hn'.trans hn, ?_, ?_⟩
    · rw [← map_map]
      exact hl'.trans (hl.map g)
    · rw [hg', hg, map_map]
  terminal := by rw [h'.terminal, h.terminal]; rfl
  init := by rw [h'.init, h.init, Option.map_map]

theorem Renames.exists_old (h : Renames f net net') (hk' : net'.get? d = some k') :
    ∃ c k level, net.get? c = some k ∧ d = f c ∧ k' = { k.rename f with level } := by
  obtain ⟨c, hc, rfl⟩ := h.onto d (contains_of_get? hk')
  obtain ⟨k, hk⟩ := contains_iff.mp hc
  obtain ⟨level, hlevel⟩ := h.component c k hk
  exact ⟨c, k, level, hk, rfl, Option.some.inj (hk'.symm.trans hlevel)⟩

theorem Renames.contains (h : Renames f net net') (c : CompId) : net'.contains (f c) = net.contains c := by
  rw [Bool.eq_iff_iff]
  constructor
  · intro hc
    obtain ⟨c', hc', hcc⟩ := h.onto _ hc
    rwa [h.injective hcc]
  intro hc
  obtain ⟨k, hk⟩ := contains_iff.mp hc
  obtain ⟨level, hk'⟩ := h.component c k hk
  exact contains_of_get? hk'

theorem Renames.view {α : Type} (h : Renames f net net') (view : Component → α) (c : CompId)
    (hlevel : ∀ (k : Component) level, view { k with level } = view k) :
    (net'.get? (f c)).map view = (net.get? c).map fun k => view (k.rename f) := by
  cases hk : net.get? c with
  | none =>
    have hc := get?_eq_none_iff.mp hk
    rw [← h.contains] at hc
    rw [get?_eq_none_iff.mpr hc]
    rfl
  | some k =>
    obtain ⟨level, hk'⟩ := h.component c k hk
    rw [hk', Option.map_some, Option.map_some, hlevel]

theorem elim_eq_getD_map {α β : Type} (x : Option α) (b : β) (f : α → β) : x.elim b f = (x.map f).getD b := by
  cases x <;> rfl

section

variable (h : Renames f net net') (c : CompId)
include h

theorem Renames.inputsOf : net'.inputsOf (f c) = (net.inputsOf c).map f := by
  rw [Network.inputsOf, elim_eq_getD_map, h.view _ c fun _ _ => rfl, Network.inputsOf]
  cases net.get? c <;> rfl

theorem Renames.outputsOf : net'.outputsOf (f c) = (net.outputsOf c).map f := by
  rw [Network.outputsOf, elim_eq_getD_map, h.view _ c fun _ _ => rfl, Network.outputsOf]
  cases net.get? c <;> rfl

theorem Renames.countAt : net'.countAt (f c) = net.countAt c := by
  rw [Network.countAt, elim_eq_getD_map, h.view _ c fun _ _ => rfl, Network.countAt]
  cases net.get? c <;> rfl

theorem Renames.valueAt : net'.valueAt (f c) = net.valueAt c := by
  rw [Network.valueAt, elim_eq_getD_map, h.view _ c fun _ _ => rfl, Network.valueAt]
  cases net.get? c <;> rfl

theorem Renames.op? : net'.op? (f c) = net.op? c := by
  rw [Network.op?, h.view _ c fun _ _ => rfl]
  simp only [Component.op_rename, Network.op?]

theorem Renames.kind? : net'.kind? (f c) = (net.kind? c).map (Kind.rename f) := by
  rw [Network.kind?, h.view _ c fun _ _ => rfl, Network.kind?, Option.map_map]
  rfl

end

theorem bind_eq_join_map {α β : Type} (x : Option α) (f : α → Option β) : x.bind f = (x.map f).join := by
  cases x <;> rfl

section

variable (h : Renames f net net') (c : CompId)
include h

theorem Renames.proposition? : net'.proposition? (f c) = (net.proposition? c).map fun p =>
      { p with pairedInput := p.pairedInput.map f, pairedLegal := p.pairedLegal.map f } := by
  rw [Network.proposition?, bind_eq_join_map, h.view _ c fun _ _ => rfl, Network.proposition?]
  cases net.get? c with
  | none => rfl
  | some k => exact Component.proposition?_rename f k

theorem Renames.isRole (role : PropRole) : net'.isRole (f c) role = net.isRole c role := by
  rw [Bool.eq_iff_iff, isRole_iff, isRole_iff, h.proposition?]
  constructor
  · rintro ⟨p', hp', hrole⟩
    obtain ⟨p, hp, rfl⟩ := Option.map_eq_some_iff.mp hp'
    exact ⟨p, hp, hrole⟩
  · rintro ⟨p, hp, hrole⟩
    rw [hp]
    exact ⟨_, rfl, hrole⟩

theorem Renames.pairedInput? : net'.pairedInput? (f c) = (net.pairedInput? c).map f := by
  rw [pairedInput?_eq, pairedInput?_eq, h.proposition?]
  cases net.proposition? c <;> rfl

theorem Renames.pairedLegal? : net'.pairedLegal? (f c) = (net.pairedLegal? c).map f := by
  rw [Network.pairedLegal?, Network.pairedLegal?, h.proposition?]
  cases net.proposition? c <;> rfl

end

theorem mem_flatMap_of_forall₂ {ps qs : List Player} {R : Player → Player → Prop}
    (h : List.Forall₂ R ps qs) {view : Player → List CompId}
    (hR : ∀ p q, R p q → ∀ x, x ∈ view q ↔ ∃ y ∈ view p, x = f y) {x : CompId} :
    x ∈ qs.flatMap view ↔ ∃ y ∈ ps.flatMap view, x = f y := by
  simp only [mem_flatMap]
  constructor
  · rintro ⟨q, hq, hx⟩
    obtain ⟨p, hp, hpq⟩ := exists_of_mem_right h hq
    obtain ⟨y, hy, rfl⟩ := (hR p q hpq x).mp hx
    exact ⟨y, ⟨p, hp, hy⟩, rfl⟩
  · rintro ⟨y, ⟨p, hp, hy⟩, rfl⟩
    obtain ⟨q, hq, hpq⟩ := exists_of_mem_right h.flip hp
    exact ⟨q, hq, (hR p q hpq _).mpr ⟨y, hy, rfl⟩⟩

theorem Renames.mem_legals (h : Renames f net net') {l : CompId} :
    l ∈ net'.legals ↔ ∃ l₀ ∈ net.legals, l = f l₀ := by
  refine mem_flatMap_of_forall₂ h.players fun p q hpq x => ?_
  rw [hpq.2.1.mem_iff, mem_map]
  grind

theorem Renames.mem_goals (h : Renames f net net') {g : CompId} :
    g ∈ net'.goals ↔ ∃ g₀ ∈ net.goals, g = f g₀ := by
  refine mem_flatMap_of_forall₂ h.players fun p q hpq x => ?_
  rw [hpq.2.2, mem_map]
  grind

theorem Renames.mem_bases (h : Renames f net net') {b : CompId} :
    b ∈ net'.bases ↔ ∃ b₀ ∈ net.bases, b = f b₀ := by
  rw [h.bases.mem_iff, mem_map]
  grind

/-! ## What renaming leaves alone -/

section

variable (h : Renames f net net')
include h

theorem Renames.exists_of_isRole {role : PropRole}
    (hd : net'.isRole d role) : ∃ c, d = f c ∧ net.isRole c role := by
  obtain ⟨c, _, rfl⟩ := h.onto d (contains_of_isRole hd)
  exact ⟨c, rfl, (h.isRole c role).symm.trans hd⟩

theorem Renames.cast (hcast : net.Cast) : net'.Cast where
  base b hb := by
    obtain ⟨b₀, hb₀, rfl⟩ := h.mem_bases.mp hb
    obtain ⟨hrole, hin⟩ := hcast.base b₀ hb₀
    rw [h.isRole, h.inputsOf, hin]
    exact ⟨hrole, rfl⟩
  bases_nodup := h.bases.nodup_iff.mpr (hcast.bases_nodup.map h.injective)
  driven := by
    refine h.driven _ (hcast.driven.imp fun b t hbt => ?_)
    rw [h.kind?, hbt]
    rfl
  transition t ht := by
    obtain ⟨t, _, rfl⟩ := h.onto t (contains_of_op? ht)
    rw [h.outputsOf, hcast.transition t ((h.op? t).symm.trans ht)]
    rfl
  input i hi := by
    obtain ⟨i₀, rfl, hi₀⟩ := h.exists_of_isRole hi
    rw [h.inputsOf, hcast.input i₀ hi₀]
    rfl
  inputs i hi := by
    obtain ⟨i₀, hi₀, rfl⟩ := (h.inputs i).mp hi
    rw [h.isRole]
    exact hcast.inputs i₀ hi₀
  terminal := by
    rw [h.terminal, h.isRole]
    exact hcast.terminal
  init i hi := by
    rw [h.init] at hi
    obtain ⟨i₀, hi₀, rfl⟩ := Option.map_eq_some_iff.mp hi
    rw [h.isRole]
    exact hcast.init i₀ hi₀
  legal l hl := by
    obtain ⟨l₀, hl₀, rfl⟩ := h.mem_legals.mp hl
    obtain ⟨hrole, i, hi⟩ := hcast.legal l₀ hl₀
    rw [h.isRole, h.pairedInput?, hi]
    exact ⟨hrole, f i, rfl⟩
  goal g hg := by
    obtain ⟨g₀, hg₀, rfl⟩ := h.mem_goals.mp hg
    rw [h.isRole]
    exact hcast.goal g₀ hg₀
  paired l i hp := by
    have hl : net'.contains l := by
      rw [pairedInput?_eq] at hp
      obtain ⟨p, hp, -⟩ := Option.bind_eq_some_iff.mp hp
      exact contains_of_proposition? hp
    obtain ⟨l, -, rfl⟩ := h.onto l hl
    rw [h.pairedInput?] at hp
    obtain ⟨i, hi, rfl⟩ := Option.map_eq_some_iff.mp hp
    obtain ⟨hl, hi, hback⟩ := hcast.paired l i hi
    refine ⟨h.mem_legals.mpr ⟨l, hl, rfl⟩, (h.inputs _).mpr ⟨i, hi, rfl⟩, ?_⟩
    rw [h.pairedLegal?, hback]
    rfl

theorem Renames.edgesIn (a b : CompId) : net'.edgesIn (f a) (f b) = net.edgesIn a b := by
  rw [Network.edgesIn, h.inputsOf, count_map_of_injective _ _ h.injective]
  rfl

theorem Renames.edgesOut (a b : CompId) : net'.edgesOut (f a) (f b) = net.edgesOut a b := by
  rw [Network.edgesOut, h.outputsOf, count_map_of_injective _ _ h.injective]
  rfl

theorem Renames.feeds {x y : CompId} (hxy : net'.Feeds x y) : ∃ a b, x = f a ∧ y = f b ∧ net.Feeds a b := by
  obtain ⟨b, -, rfl⟩ := h.onto y (contains_of_mem_inputsOf hxy)
  rw [Feeds, h.inputsOf] at hxy
  obtain ⟨a, ha, rfl⟩ := mem_map.mp hxy
  exact ⟨a, b, rfl, rfl, ha⟩

theorem Renames.balanced (hb : net.Balanced) : net'.Balanced := by
  intro x y
  by_cases hin : x ∈ net'.inputsOf y
  · obtain ⟨a, b, rfl, rfl, -⟩ := h.feeds hin
    rw [h.edgesIn, h.edgesOut, hb]
  have hout : y ∉ net'.outputsOf x := by
    intro hy
    obtain ⟨a, -, rfl⟩ := h.onto x (contains_of_mem_outputsOf hy)
    rw [h.outputsOf] at hy
    obtain ⟨b, hb', rfl⟩ := mem_map.mp hy
    apply hin
    rw [h.inputsOf]
    exact mem_map_of_mem (hb.mem_iff.mp hb')
  rw [Network.edgesIn, Network.edgesOut, count_eq_zero.mpr hin, count_eq_zero.mpr hout]

theorem Renames.acyclic (ha : net.Acyclic) : net'.Acyclic := by
  have hpath : ∀ x y, Relation.TransGen net'.Feeds x y →
      ∃ a b, x = f a ∧ y = f b ∧ Relation.TransGen net.Feeds a b := by
    intro x y hxy
    induction hxy with
    | single hxy =>
      obtain ⟨a, b, rfl, rfl, hab⟩ := h.feeds hxy
      exact ⟨a, b, rfl, rfl, .single hab⟩
    | tail _ hyz ih =>
      obtain ⟨a, b, rfl, rfl, hab⟩ := ih
      obtain ⟨b', c, hb, rfl, hbc⟩ := h.feeds hyz
      rw [← h.injective hb] at hbc
      exact ⟨a, c, rfl, rfl, hab.tail hbc⟩
  intro x hx
  obtain ⟨a, b, rfl, hab, hp⟩ := hpath x x hx
  rw [← h.injective hab] at hp
  exact ha a hp

theorem Renames.formed (hf : net.Formed) : net'.Formed where
  toCast := h.cast hf.toCast
  balanced := h.balanced hf.balanced
  acyclic := h.acyclic hf.acyclic
  shaped d k' hk' := by
    obtain ⟨c, k, level, hk, -, rfl⟩ := h.exists_old hk'
    have hs := hf.shaped c k hk
    have hop : Component.op { k.rename f with level } = k.op := k.op_rename f
    rw [Component.Shaped, hop]
    exact hs

theorem Renames.fitted (hf : net.Fitted) : net'.Fitted := by
  intro d k' hk' hand
  obtain ⟨c, k, level, hk, -, rfl⟩ := h.exists_old hk'
  have hop : Component.op { k.rename f with level } = k.op := k.op_rename f
  obtain ⟨ht, hf⟩ := hf c k hk (hop.symm.trans hand)
  change k.reqTrue = (k.inputs.map f).length ∧ k.reqFalse = (k.inputs.map f).length - 1
  rw [length_map]
  exact ⟨ht, hf⟩

theorem Renames.narrow (hn : net.Narrow) : net'.Narrow := by
  intro d k' hk'
  obtain ⟨c, k, level, hk, -, rfl⟩ := h.exists_old hk'
  have hop : Component.op { k.rename f with level } = k.op := k.op_rename f
  obtain ⟨hone, hconst⟩ := hn c k hk
  rw [hop]
  change (_ → _ → (k.inputs.map f).length ≤ 1) ∧ (_ → k.inputs.map f = [])
  rw [length_map, map_eq_nil_iff]
  exact ⟨hone, hconst⟩

theorem Renames.seeded (hs : net.Seeded) : net'.Seeded where
  base b hb := by
    obtain ⟨b₀, hb₀, rfl⟩ := h.mem_bases.mp hb
    rw [h.countAt]
    exact hs.base b₀ hb₀
  input i hi := by
    obtain ⟨i₀, rfl, hi₀⟩ := h.exists_of_isRole hi
    rw [h.countAt]
    exact hs.input i₀ hi₀
  constant c hop hi := by
    obtain ⟨c, -, rfl⟩ := h.onto c (contains_of_op? hop)
    rw [h.inputsOf, map_eq_nil_iff] at hi
    rw [h.countAt]
    exact hs.constant c ((h.op? c).symm.trans hop) hi

theorem Renames.unlit (hu : net.Unlit) : net'.Unlit := by
  intro b hb
  obtain ⟨b₀, hb₀, rfl⟩ := h.mem_bases.mp hb
  rw [h.countAt]
  exact hu b₀ hb₀

theorem Renames.ended (he : net.Ended) : net'.Ended := by
  intro l hl
  obtain ⟨l₀, hl₀, rfl⟩ := h.mem_legals.mp hl
  rw [h.outputsOf, he l₀ hl₀]
  rfl

theorem Renames.grounded (hg : net.Grounded) : net'.Grounded := by
  intro d k' hk' hgate
  obtain ⟨c, k, level, hk, -, rfl⟩ := h.exists_old hk'
  have hop : Component.op { k.rename f with level } = k.op := k.op_rename f
  rw [Component.isGate, hop] at hgate
  change k.inputs.map f ≠ []
  rw [Ne, map_eq_nil_iff]
  exact hg c k hk hgate

theorem Renames.tallied (ht : net.Tallied) : net'.Tallied := by
  intro d k' hk' hi
  obtain ⟨c, k, level, hk, -, rfl⟩ := h.exists_old hk'
  change k.inputs.map f ≠ [] at hi
  rw [Ne, map_eq_nil_iff] at hi
  change k.count = ((k.inputs.map f).countP net'.valueAt : Nat)
  rw [ht c k hk hi, countP_map]
  congr 2
  exact funext fun a => (h.valueAt a).symm

theorem Renames.fanIn {cap : Nat} (hc : ∀ c, (net.inputsOf c).length ≤ cap)
    (d : CompId) : (net'.inputsOf d).length ≤ cap := by
  by_cases hd : net'.inputsOf d = []
  · rw [hd]
    exact Nat.zero_le cap
  obtain ⟨c, -, rfl⟩ := h.onto d (contains_of_fed hd)
  rw [h.inputsOf, length_map]
  exact hc c

theorem Renames.eval (hf : net.Formed) (σ : CompId → Bool)
    (hc : net.contains c) : net'.eval σ (f c) = net.eval (fun a => σ (f a)) c := by
  have hobeys : net.Obeys fun a => net'.eval σ (f a) := by
    intro a op hop hi
    have hop' : net'.op? (f a) = some op := (h.op? a).trans hop
    have hi' : net'.inputsOf (f a) ≠ [] := by
      rw [h.inputsOf, Ne, map_eq_nil_iff]
      exact hi
    have hv := obeys_eval (h.balanced hf.balanced) (h.acyclic hf.acyclic) σ (f a) op hop' hi'
    rw [h.inputsOf] at hv
    refine hv.trans ?_
    cases op <;> simp only [Op.read, all_map, any_map] <;> rfl
  refine hobeys.eq_eval hf.balanced hf.acyclic (fun a _ hi => ?_) c hc
  apply eval_of_source
  rw [h.inputsOf, hi]
  rfl

theorem Renames.truth (hf : net.Formed) {p q : Position} (hon : ∀ b, f b ∈ net'.bases → q.on (f b) = p.on b)
    (hdoes : ∀ i, net'.isRole (f i) .input → q.does (f i) = p.does i) (hc : net.contains c) :
    net'.truth q (f c) = net.truth p c := by
  refine (h.eval hf (net'.source q) hc).trans (congrArg (net.eval · c) (funext fun a => ?_))
  have hmem : f a ∈ net'.bases ↔ a ∈ net.bases := by
    rw [h.mem_bases]
    exact ⟨fun ⟨b, hb, hab⟩ => h.injective hab ▸ hb, fun hb => ⟨a, hb, rfl⟩⟩
  rw [source, source]
  simp only [hmem, h.isRole, h.valueAt]
  split
  · next hbase => exact hon a (hmem.mpr hbase)
  split
  · next hinput => exact hdoes a ((h.isRole a .input).trans hinput)
  · rfl

end

end Renames

end Network

end GameNet
