import GameNet.Proofs.Listing.Record
import GameNet.Proofs.Simplify.Counts

/-!
Which components play the parts in the game, and what every stage of the compiler leaves alone.

`Cast` says that every part is played by a component that fits it. `Keeps` is what all stages have in
common once transitions are cut from their bases: kinds stay, and what has no inputs gets none.
-/

namespace GameNet.Network

open List
open Option hiding or_assoc

structure Cast (net : Network) : Prop where
  base : ∀ b ∈ net.bases, net.isRole b .base = true ∧ net.inputsOf b = []
  bases_nodup : net.bases.Nodup
  driven : List.Forall₂ (fun b t => net.kind? t = some (.transition (some b)))
    net.bases net.transitions
  transition : ∀ t, net.op? t = some .transition → net.outputsOf t = []
  input : ∀ i, net.isRole i .input = true → net.inputsOf i = []
  inputs : ∀ i ∈ net.inputs, net.isRole i .input = true
  terminal : net.isRole net.terminal .terminal = true
  init : ∀ i, net.init = some i → net.isRole i .init = true
  legal : ∀ l ∈ net.legals, net.isRole l .legal = true ∧ ∃ i, net.pairedInput? l = some i
  goal : ∀ g ∈ net.goals, net.isRole g .goal = true
  paired : ∀ l i, net.pairedInput? l = some i →
    l ∈ net.legals ∧ i ∈ net.inputs ∧ net.pairedLegal? i = some l

/-- The kind stays, and without inputs there come none. What is no gate keeps its count, too, and
without outputs it gets none. -/
structure Stays (k k' : Component) : Prop where
  kind : k'.kind = k.kind
  inputs : k.inputs = [] → k'.inputs = []
  count : k.isGate = false → k'.count = k.count
  outputs : k.isGate = false → k.outputs = [] → k'.outputs = []

structure Keeps (net net' : Network) : Prop where
  capacity : net.capacity ≤ net'.capacity
  old : ∀ c k', net'.get? c = some k' →
    (∃ k, net.get? c = some k ∧ Stays k k') ∨ net.capacity ≤ c ∧ k'.isGate = true

section Keeps

variable {net net' net'' : Network} {c : CompId} {k k' : Component} {p : Proposition}

theorem isGate_of_kind (h : k'.kind = k.kind) : k'.isGate = k.isGate := by
  rw [Component.isGate, Component.op, h]
  rfl

theorem Stays.refl (k : Component) : Stays k k := ⟨rfl, id, fun _ => rfl, fun _ ho => ho⟩

theorem Stays.trans {k'' : Component} (h : Stays k k') (h' : Stays k' k'') : Stays k k'' := by
  have hg := isGate_of_kind h.kind
  exact ⟨h'.kind.trans h.kind, fun hi => h'.inputs (h.inputs hi),
    fun hgate => (h'.count (hg.trans hgate)).trans (h.count hgate),
    fun hgate ho => h'.outputs (hg.trans hgate) (h.outputs hgate ho)⟩

theorem Keeps.refl (net : Network) : Keeps net net :=
  ⟨Nat.le_refl _, fun _ k hk => .inl ⟨k, hk, .refl k⟩⟩

theorem Keeps.trans (h : Keeps net net') (h' : Keeps net' net'') : Keeps net net'' := by
  refine ⟨Nat.le_trans h.capacity h'.capacity, fun c k'' hk'' => ?_⟩
  rcases h'.old c k'' hk'' with ⟨k', hk', hstays'⟩ | ⟨hcap, hg⟩
  · rcases h.old c k' hk' with ⟨k, hk, hstays⟩ | ⟨hcap, hg⟩
    · exact .inl ⟨k, hk, hstays.trans hstays'⟩
    · exact .inr ⟨hcap, (isGate_of_kind hstays'.kind).trans hg⟩
  · exact .inr ⟨Nat.le_trans h.capacity hcap, hg⟩

theorem Keeps.exists_old (h : Keeps net net') (hk' : net'.get? c = some k')
    (hc : net.contains c ∨ k'.isGate = false) : ∃ k, net.get? c = some k ∧ Stays k k' := by
  rcases h.old c k' hk' with hold | ⟨hcap, hg⟩
  · exact hold
  rcases hc with hc | hc
  · exact absurd (lt_capacity_of_contains hc) (Nat.not_lt.mpr hcap)
  · rw [hg] at hc
    cases hc

theorem Keeps.kind? (h : Keeps net net') (hc : net.contains c)
    (hc' : net'.contains c) : net'.kind? c = net.kind? c := by
  obtain ⟨k', hk'⟩ := contains_iff.mp hc'
  obtain ⟨k, hk, hstays⟩ := h.exists_old hk' (.inl hc)
  rw [Network.kind?, Network.kind?, hk, hk']
  exact congrArg some hstays.kind

theorem proposition?_of_kind? (h : net'.kind? c = net.kind? c) :
    net'.proposition? c = net.proposition? c := by
  rw [Network.kind?, Network.kind?] at h
  rw [Network.proposition?, Network.proposition?]
  cases hk : net.get? c with
  | none =>
    rw [hk, map_none, map_eq_none_iff] at h
    rw [h]
  | some k =>
    rw [hk, map_some, map_eq_some_iff] at h
    obtain ⟨k', hk', hkind⟩ := h
    rw [hk', bind_some, bind_some, Component.proposition?, Component.proposition?, hkind]

theorem kind?_of_proposition? (h : net.proposition? c = some p) : net.kind? c = some (.proposition p) := by
  obtain ⟨k, hk, hp⟩ := bind_eq_some_iff.mp h
  rw [Component.proposition?] at hp
  rw [Network.kind?, hk, map_some]
  split at hp
  · next q hkind => rw [hkind, Option.some.inj hp]
  · cases hp

theorem isRole_of_kind? (h : net'.kind? c = net.kind? c) (role : PropRole) :
    net'.isRole c role = net.isRole c role := by
  rw [Bool.eq_iff_iff, isRole_iff, isRole_iff, proposition?_of_kind? h]

theorem pairedInput?_of_kind? (h : net'.kind? c = net.kind? c) :
    net'.pairedInput? c = net.pairedInput? c := by
  rw [pairedInput?_eq, pairedInput?_eq, proposition?_of_kind? h]

theorem op?_of_kind?_eq (h : net'.kind? c = net.kind? c) : net'.op? c = net.op? c := by
  have hop : ∀ net : Network, net.op? c = (net.kind? c).map Kind.op := fun net => by
    rw [op?, kind?, Option.map_map]
    rfl
  rw [hop, hop, h]

theorem Keeps.proposition? (h : Keeps net net') (hc : net.contains c)
    (hc' : net'.contains c) : net'.proposition? c = net.proposition? c :=
  proposition?_of_kind? (h.kind? hc hc')

theorem contains_of_proposition? (h : net.proposition? c = some p) : net.contains c := by
  obtain ⟨k, hk, -⟩ := bind_eq_some_iff.mp h
  exact contains_of_get? hk

theorem Keeps.kind?_of_plain (h : Keeps net net') {kind : Kind} (hkind : net'.kind? c = some kind)
    (hg : kind.op.isGate = false) : net.kind? c = some kind := by
  obtain ⟨k', hk', rfl⟩ := map_eq_some_iff.mp hkind
  obtain ⟨k, hk, hstays⟩ := h.exists_old hk' (.inr hg)
  rw [Network.kind?, hk, map_some, hstays.kind]

theorem Keeps.proposition?_of_some (h : Keeps net net')
    (hp : net'.proposition? c = some p) : net.proposition? c = some p := by
  have hkind := kind?_of_proposition? hp
  exact (proposition?_of_kind? ((h.kind?_of_plain hkind rfl).trans hkind.symm)).trans hp

theorem contains_of_isRole {role : PropRole} (h : net.isRole c role) : net.contains c := by
  obtain ⟨p, hp, -⟩ := isRole_iff.mp h
  exact contains_of_proposition? hp

section

variable (h : Keeps net net')
include h

theorem Keeps.isRole_of {role : PropRole} (hr : net'.isRole c role) : net.isRole c role := by
  obtain ⟨p, hp, hrole⟩ := isRole_iff.mp hr
  exact isRole_iff.mpr ⟨p, h.proposition?_of_some hp, hrole⟩

theorem Keeps.isRole {role : PropRole} (hr : net.isRole c role)
    (hc' : net'.contains c) : net'.isRole c role := by
  obtain ⟨p, hp, hrole⟩ := isRole_iff.mp hr
  exact isRole_iff.mpr ⟨p, (h.proposition? (contains_of_proposition? hp) hc').trans hp, hrole⟩

theorem Keeps.inputsOf (hi : net.inputsOf c = []) (hc : net.contains c) : net'.inputsOf c = [] := by
  by_cases hc' : net'.contains c
  · obtain ⟨k', hk'⟩ := contains_iff.mp hc'
    obtain ⟨k, hk, hstays⟩ := h.exists_old hk' (.inl hc)
    rw [inputsOf_of_get? hk] at hi
    rw [inputsOf_of_get? hk']
    exact hstays.inputs hi
  · rw [Bool.not_eq_true, ← get?_eq_none_iff] at hc'
    rw [Network.inputsOf, hc']
    rfl

theorem Keeps.countAt {op : Op} (hop : net.op? c = some op)
    (hg : op.isGate = false) (hc' : net'.contains c) : net'.countAt c = net.countAt c := by
  obtain ⟨k', hk'⟩ := contains_iff.mp hc'
  obtain ⟨k, hk, hstays⟩ := h.exists_old hk' (.inl (contains_of_op? hop))
  rw [op?_of_get? hk] at hop
  rw [countAt_of_get? hk, countAt_of_get? hk']
  refine hstays.count ?_
  rw [Component.isGate, Option.some.inj hop]
  exact hg

theorem Keeps.outputsOf_of_transition (ht : ∀ t, net.op? t = some .transition → net.outputsOf t = [])
    (hop : net'.op? c = some .transition) : net'.outputsOf c = [] := by
  obtain ⟨k', hk', hop⟩ := map_eq_some_iff.mp hop
  have hg' : k'.isGate = false := by rw [Component.isGate, hop]; rfl
  obtain ⟨k, hk, hstays⟩ := h.exists_old hk' (.inr hg')
  have hop' : net.op? c = some .transition := by
    rw [op?_of_get? hk, ← hop, Component.op, Component.op, hstays.kind]
  have hnil := ht c hop'
  rw [outputsOf_of_get? hk] at hnil
  rw [outputsOf_of_get? hk']
  exact hstays.outputs ((isGate_of_kind hstays.kind).symm.trans hg') hnil

end

theorem op?_of_isRole {role : PropRole} (h : net.isRole c role) : net.op? c = some .proposition := by
  obtain ⟨k, hk⟩ := contains_iff.mp (contains_of_isRole h)
  rw [isRole_of_get? hk] at h
  rw [op?_of_get? hk, Component.op_of_hasRole h]

theorem isRole_unique {r r' : PropRole} (h : net.isRole c r) (h' : net.isRole c r') : r = r' := by
  obtain ⟨p, hp, rfl⟩ := isRole_iff.mp h
  obtain ⟨p', hp', rfl⟩ := isRole_iff.mp h'
  rw [hp] at hp'
  cases hp'
  rfl

end Keeps

/-! ## The cast stays -/

theorem field_of_parts {α : Type} {net net' : Network} (f : Network → α) (h : net'.parts = net.parts)
    (hf : ∀ net : Network, f net.parts = f net := by intro net; rfl) : f net' = f net := by
  rw [← hf net', h, hf net]

section Cast

variable {net net' : Network} {c : CompId}

theorem mem_protectedIds {withGoals : Bool} : c ∈ net.protectedIds withGoals ↔
    c ∈ net.bases ∨ c ∈ net.inputs ∨ net.init = some c ∨ c ∈ net.legals ∨
      withGoals ∧ c ∈ net.goals ∨ c ∈ net.transitions ∨ c = net.terminal := by
  simp only [protectedIds, inbound, outbound, CompId.mem_sortedSet, mem_append,
    mem_toList, mem_singleton]
  cases withGoals <;> simp [or_assoc]

theorem Cast.op?_of_legal (h : net.Cast) (hl : c ∈ net.legals) : net.op? c = some .proposition :=
  op?_of_isRole (h.legal c hl).1

theorem op?_of_kind? {kind : Kind} (h : net.kind? c = some kind) : net.op? c = some kind.op := by
  obtain ⟨k, hk, rfl⟩ := map_eq_some_iff.mp h
  exact op?_of_get? hk

theorem exists_of_mem_right {α β : Type} {R : α → β → Prop} {as : List α} {bs : List β} {b : β}
    (h : List.Forall₂ R as bs) (hb : b ∈ bs) : ∃ a ∈ as, R a b := by
  induction h with
  | nil => cases hb
  | @cons a b' as bs hab _ ih =>
    rcases mem_cons.mp hb with rfl | hb
    · exact ⟨a, mem_cons_self, hab⟩
    · obtain ⟨a', ha', hR⟩ := ih hb
      exact ⟨a', mem_cons_of_mem _ ha', hR⟩

theorem Cast.op?_of_transition (h : net.Cast) (ht : c ∈ net.transitions) : net.op? c = some .transition := by
  obtain ⟨b, -, hb⟩ := exists_of_mem_right h.driven ht
  exact op?_of_kind? hb

theorem Cast.partsPlayed (h : net.Cast) : net.PartsPlayed := by
  intro c hc
  rcases mem_protectedIds.mp hc with hb | hi | hi | hl | ⟨-, hg⟩ | ht | rfl
  · exact .inl (op?_of_isRole (h.base c hb).1)
  · exact .inl (op?_of_isRole (h.inputs c hi))
  · exact .inl (op?_of_isRole (h.init c hi))
  · exact .inl (h.op?_of_legal hl)
  · exact .inl (op?_of_isRole (h.goal c hg))
  · exact .inr (h.op?_of_transition ht)
  · exact .inl (op?_of_isRole h.terminal)

theorem Keeps.pairedInput? (h : Keeps net net') {l i : CompId} (hp : net'.pairedInput? l = some i) :
    net.pairedInput? l = some i := by
  rw [pairedInput?_eq] at hp ⊢
  obtain ⟨p, hp, hi⟩ := bind_eq_some_iff.mp hp
  rw [h.proposition?_of_some hp]
  exact hi

theorem Cast.keeps (h : net.Cast) (hk : Keeps net net') (hplayers : net'.players = net.players)
    (hterminal : net'.terminal = net.terminal) (hinit : ∀ i, net'.init = some i → net.init = some i)
    (hbases : net'.bases.Sublist net.bases)
    (hdriven : List.Forall₂ (fun b t => net.kind? t = some (.transition (some b)))
      net'.bases net'.transitions) (hinputs : ∀ i ∈ net'.inputs, i ∈ net.inputs)
    (hpaired : ∀ l i, net.pairedInput? l = some i → i ∈ net'.inputs)
    (hlive : ∀ c ∈ net'.protectedIds true, net'.contains c) : net'.Cast := by
  have hlegals : net'.legals = net.legals := by rw [legals, hplayers, legals]
  have hgoals : net'.goals = net.goals := by rw [goals, hplayers, goals]
  have hlegal : ∀ l ∈ net.legals, net'.contains l := fun l hl =>
    hlive l (mem_protectedIds.mpr (.inr (.inr (.inr (.inl (hlegals ▸ hl))))))
  have hinput : ∀ i ∈ net'.inputs, net'.contains i := fun i hi =>
    hlive i (mem_protectedIds.mpr (.inr (.inl hi)))
  constructor
  case base =>
    intro b hb
    obtain ⟨hrole, hnil⟩ := h.base b (hbases.subset hb)
    exact ⟨hk.isRole hrole (hlive b (mem_protectedIds.mpr (.inl hb))),
      hk.inputsOf hnil (contains_of_isRole hrole)⟩
  case bases_nodup => exact hbases.nodup h.bases_nodup
  case driven =>
    rw [forall₂_iff_zip] at hdriven ⊢
    refine ⟨hdriven.1, fun {b t} hbt => ?_⟩
    have ht := hlive t (mem_protectedIds.mpr (.inr (.inr (.inr (.inr (.inr (.inl (of_mem_zip hbt).2)))))))
    rw [hk.kind? (contains_of_op? (op?_of_kind? (hdriven.2 hbt))) ht]
    exact hdriven.2 hbt
  case transition =>
    intro t ht
    exact hk.outputsOf_of_transition h.transition ht
  case input =>
    intro i hi
    have hrole := hk.isRole_of hi
    exact hk.inputsOf (h.input i hrole) (contains_of_isRole hrole)
  case inputs =>
    intro i hi
    exact hk.isRole (h.inputs i (hinputs i hi)) (hinput i hi)
  case terminal =>
    rw [hterminal]
    refine hk.isRole h.terminal (hlive _ (mem_protectedIds.mpr ?_))
    exact .inr (.inr (.inr (.inr (.inr (.inr hterminal.symm)))))
  case init =>
    intro i hi
    exact hk.isRole (h.init i (hinit i hi)) (hlive i (mem_protectedIds.mpr (.inr (.inr (.inl hi)))))
  case legal =>
    intro l hl
    rw [hlegals] at hl
    obtain ⟨hrole, i, hi⟩ := h.legal l hl
    refine ⟨hk.isRole hrole (hlegal l hl), i, ?_⟩
    rw [pairedInput?_eq] at hi ⊢
    rw [hk.proposition? (contains_of_isRole hrole) (hlegal l hl)]
    exact hi
  case goal =>
    intro g hg
    have hrole := h.goal g (hgoals ▸ hg)
    exact hk.isRole hrole (hlive g (mem_protectedIds.mpr (.inr (.inr (.inr (.inr (.inl ⟨rfl, hg⟩)))))))
  case paired =>
    intro l i hp
    have hp₀ := hk.pairedInput? hp
    obtain ⟨hl, -, hback⟩ := h.paired l i hp₀
    have hi' := hpaired l i hp₀
    refine ⟨hlegals ▸ hl, hi', ?_⟩
    rw [pairedLegal?] at hback ⊢
    obtain ⟨p, hpi, -⟩ := bind_eq_some_iff.mp hback
    rw [hk.proposition? (contains_of_proposition? hpi) (hinput i hi')]
    exact hback

theorem Cast.congr (h : net.Cast) (hkind : ∀ c, net'.kind? c = net.kind? c)
    (hin : ∀ c, net'.inputsOf c = net.inputsOf c) (hout : ∀ c, net'.outputsOf c = net.outputsOf c)
    (hbases : net'.bases.Perm net.bases)
    (hdriven : List.Forall₂ (fun b t => net.kind? t = some (.transition (some b)))
      net'.bases net'.transitions)
    (hinputs : ∀ i, i ∈ net'.inputs ↔ i ∈ net.inputs) (hlegals : ∀ l, l ∈ net'.legals ↔ l ∈ net.legals)
    (hgoals : ∀ g ∈ net'.goals, g ∈ net.goals) (hterminal : net'.terminal = net.terminal)
    (hinit : net'.init = net.init) : net'.Cast := by
  have hrole : ∀ c role, net'.isRole c role = net.isRole c role := fun c role =>
    isRole_of_kind? (hkind c) role
  have hpaired : ∀ l, net'.pairedInput? l = net.pairedInput? l := fun l =>
    pairedInput?_of_kind? (hkind l)
  constructor
  case base =>
    intro b hb
    rw [hrole, hin]
    exact h.base b (hbases.subset hb)
  case bases_nodup => exact hbases.nodup_iff.mpr h.bases_nodup
  case driven => exact hdriven.imp fun b t hbt => (hkind t).trans hbt
  case transition =>
    intro t ht
    rw [hout]
    exact h.transition t ((op?_of_kind?_eq (hkind t)).symm.trans ht)
  case input =>
    intro i hi
    rw [hin]
    exact h.input i ((hrole i .input).symm.trans hi)
  case inputs =>
    intro i hi
    rw [hrole]
    exact h.inputs i ((hinputs i).mp hi)
  case terminal =>
    rw [hrole, hterminal]
    exact h.terminal
  case init =>
    intro i hi
    rw [hrole]
    exact h.init i (hinit ▸ hi)
  case legal =>
    intro l hl
    rw [hpaired, hrole]
    exact h.legal l ((hlegals l).mp hl)
  case goal =>
    intro g hg
    rw [hrole]
    exact h.goal g (hgoals g hg)
  case paired =>
    intro l i hp
    rw [hpaired] at hp
    obtain ⟨hl, hi, hback⟩ := h.paired l i hp
    refine ⟨(hlegals l).mpr hl, (hinputs i).mpr hi, ?_⟩
    rw [pairedLegal?, proposition?_of_kind? (hkind i)]
    exact hback

theorem Cast.of_parts (h : net.Cast) (hk : Keeps net net') (hparts : net'.parts = net.parts)
    (hlive : ∀ c ∈ net.protectedIds true, net'.contains c) : net'.Cast := by
  have hbases := field_of_parts Network.bases hparts
  have hinputs := field_of_parts Network.inputs hparts
  refine h.keeps hk (field_of_parts _ hparts) (field_of_parts _ hparts)
    (fun i hi => (field_of_parts Network.init hparts).symm.trans hi) (hbases ▸ List.Sublist.refl _) ?_
    (fun i hi => hinputs ▸ hi) (fun l i hp => hinputs ▸ (h.paired l i hp).2.1) ?_
  · rw [hbases, field_of_parts Network.transitions hparts]
    exact h.driven
  · rw [protectedIds_of_parts hparts]
    exact hlive

end Cast

/-! ## Where values come from -/

def IsSource (net : Network) (c : CompId) : Prop :=
  c ∈ net.bases ∨ c ∈ net.inputs ∨ net.init = some c ∨ net.op? c = some .constant

def IsHead (net : Network) (c : CompId) : Prop := net.inputsOf c = [] ∧ net.outputsOf c ≠ []

def Supplied (net : Network) : Prop :=
  ∀ c k, net.get? c = some k → k.isGate = false → net.IsHead c → net.IsSource c ∨ c ∈ net.legals

section Supplied

variable {keep : CompId → Prop} {net net' : Network} {c : CompId}

theorem IsHead.contains (h : net.IsHead c) : net.contains c := contains_of_read h.2

section

variable (hs : net.Supplied) (hheads : ∀ c, net'.IsHead c → net.IsHead c)
  (hold : ∀ c k', net'.get? c = some k' → k'.isGate = false → ∃ k, net.get? c = some k ∧ k'.kind = k.kind)
include hs hheads hold

theorem Supplied.of_heads (hbases : ∀ b ∈ net.bases, net'.contains b → b ∈ net'.bases)
    (hinputs : ∀ i ∈ net.inputs, net'.contains i → i ∈ net'.inputs)
    (hinit : ∀ i, net.init = some i → net'.contains i → net'.init = some i)
    (hlegals : net'.legals = net.legals) : net'.Supplied := by
  intro c k' hk' hg hc
  obtain ⟨k, hk, hkind⟩ := hold c k' hk' hg
  have hlive := contains_of_get? hk'
  refine (hs c k hk ((isGate_of_kind hkind).symm.trans hg) (hheads c hc)).imp (fun hsrc => ?_)
    fun hl => hlegals ▸ hl
  rcases hsrc with hb | hi | hi | hop
  · exact .inl (hbases c hb hlive)
  · exact .inr (.inl (hinputs c hi hlive))
  · exact .inr (.inr (.inl (hinit c hi hlive)))
  · rw [op?_of_get? hk, Component.op, ← hkind] at hop
    exact .inr (.inr (.inr ((op?_of_get? hk').trans hop)))

theorem Supplied.of_parts (hparts : net'.parts = net.parts) : net'.Supplied := by
  refine hs.of_heads hheads hold (fun b hb _ => ?_) (fun i hi _ => ?_) (fun i hi _ => ?_)
    (field_of_parts Network.legals hparts)
  · rwa [field_of_parts Network.bases hparts]
  · rwa [field_of_parts Network.inputs hparts]
  · rwa [field_of_parts Network.init hparts]

end

theorem Keeps.exists_kind (h : Keeps net net') (c : CompId) (k' : Component)
    (hk' : net'.get? c = some k') (hg : k'.isGate = false) : ∃ k, net.get? c = some k ∧ k'.kind = k.kind := by
  obtain ⟨k, hk, hstays⟩ := h.exists_old hk' (.inr hg)
  exact ⟨k, hk, hstays.kind⟩

theorem Sound.isHead (h : Sound keep net net') (hc : net'.IsHead c) : net.IsHead c := by
  obtain ⟨hlive, hi⟩ := h.source hc.contains hc.1
  exact ⟨hi, fun ho => hc.2 (h.unread c ⟨.inr ⟨hlive, hi⟩, ho⟩)⟩

end Supplied

/-! ## Networks between the stages -/

structure Formed (net : Network) : Prop extends Cast net where
  balanced : net.Balanced
  acyclic : net.Acyclic
  shaped : ∀ c k, net.get? c = some k → k.Shaped

def Fitted (net : Network) : Prop := ∀ c k, net.get? c = some k → k.op = .and →
  k.reqTrue = k.inputs.length ∧ k.reqFalse = k.inputs.length - 1

section Formed

variable {keep : CompId → Prop} {net net' : Network}

theorem Formed.standard (h : net.Formed) (hf : net.Fitted) : net.Standard := by
  intro c k hk
  obtain ⟨hsign, hplain⟩ := h.shaped c k hk
  by_cases hop : k.op = .and
  · obtain ⟨ht, hl⟩ := hf c k hk hop
    exact ⟨by rw [if_pos hop, ht], by rw [if_pos hop, hl], hsign⟩
  · obtain ⟨ht, hl⟩ := hplain hop
    exact ⟨by rw [if_neg hop, ht], by rw [if_neg hop, hl], hsign⟩

theorem Sound.keepsAll (h : Sound keep net net') : Keeps net net' := by
  refine ⟨h.capacity, fun c k' hk' => ?_⟩
  have hc' := contains_of_get? hk'
  by_cases hc : net.contains c
  · obtain ⟨k, hk⟩ := contains_iff.mp hc
    have hface : k'.face = k.face := by
      have h' := h.face c hc hc'
      rw [face?, face?, hk, hk'] at h'
      exact Option.some.inj h'
    have hop : net.op? c = some k.op := op?_of_get? hk
    refine .inl ⟨k, hk, Component.kind_of_face hface, fun hi => ?_, fun hg => ?_, fun hg ho => ?_⟩
    · rw [← inputsOf_of_get? hk] at hi
      obtain ⟨hi', -⟩ := h.leaf c hc hc' hi
      rwa [inputsOf_of_get? hk'] at hi'
    · have hbare := h.bare? hop hg hc'
      rw [bare?, bare?, hk, hk'] at hbare
      exact Component.count_of_bare (Option.some.inj hbare)
    · rw [← outputsOf_of_get? hk']
      exact h.unread c ⟨.inl ⟨k.op, hop, hg⟩, by rw [outputsOf_of_get? hk, ho]⟩
  · rw [Bool.not_eq_true] at hc
    obtain ⟨hcap, hgate, -⟩ := h.fresh c hc' hc
    refine .inr ⟨hcap, ?_⟩
    rw [op?_of_get? hk'] at hgate
    rcases hgate with hop | hop
    · rw [Component.isGate, Option.some.inj hop]; rfl
    · rw [Component.isGate, Option.some.inj hop]; rfl

theorem Sound.shaped (h : Sound keep net net') (hs : ∀ c k, net.get? c = some k → k.Shaped) (c : CompId)
    (k' : Component) (hk' : net'.get? c = some k') : k'.Shaped := by
  have hc' := contains_of_get? hk'
  by_cases hc : net.contains c
  · obtain ⟨k, hk⟩ := contains_iff.mp hc
    have hface := h.face c hc hc'
    rw [face?, face?, hk, hk'] at hface
    exact (hs c k hk).of_face (Option.some.inj hface)
  · rw [Bool.not_eq_true] at hc
    exact (h.fresh c hc' hc).2.2.2 k' hk'

theorem Sound.supplied (h : Sound keep net net') (hs : net.Supplied) : net'.Supplied :=
  hs.of_parts (fun _ => h.isHead) h.keepsAll.exists_kind h.parts

theorem Formed.sound (h : net.Formed) (hs : Sound keep net net')
    (hkeep : ∀ c ∈ net.protectedIds true, keep c) : net'.Formed where
  toCast := h.toCast.of_parts hs.keepsAll hs.parts fun c hc =>
    hs.keeps c (hkeep c hc) (h.partsPlayed.contains hc)
  balanced := hs.balanced
  acyclic := hs.acyclic
  shaped := hs.shaped h.shaped

theorem Formed.optimize (h : net.Formed) (mode : Optimize.Mode) :
    (net.optimize mode).Yields fun r => Sound (· ∈ net.anchors) net r.1 ∧ r.1.Formed ∧ r.1.Fitted :=
  (optimize_yields mode h.balanced h.acyclic h.partsPlayed).mono fun _ hr =>
    ⟨hr.1, h.sound hr.1 fun _ hc => mem_anchors.mpr ⟨h.partsPlayed.contains hc, .inl hc⟩, hr.2⟩

end Formed

end GameNet.Network
