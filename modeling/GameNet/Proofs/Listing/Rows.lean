import GameNet.Listing.Build
import GameNet.Proofs.Wiring

/-!
The rows of a listing, and the components that they become.
-/

namespace GameNet

open List

def RawComponent.place (r : RawComponent) (kind : Kind) : Component :=
  { Component.new kind r.count.toInt with
    inputs := r.inputs.map (·.toNat), outputs := r.outputs.map (·.toNat) }

namespace Listing

/-! ## Rows -/

def rowIn? (rows : List RawComponent) (c : CompId) : Option RawComponent :=
  rows.find? fun r => r.id.toNat == c

def row? (l : Listing) (c : CompId) : Option RawComponent := rowIn? l.components.toList c

def inputsOf (l : Listing) (c : CompId) : List CompId :=
  (l.row? c).elim [] fun r => r.inputs.map (·.toNat)

def outputsOf (l : Listing) (c : CompId) : List CompId :=
  (l.row? c).elim [] fun r => r.outputs.map (·.toNat)

def Balanced (l : Listing) : Prop := ∀ a b, (l.outputsOf a).count b = (l.inputsOf b).count a

def kind? (l : Listing) (c : CompId) : Option Kind :=
  (l.row? c).bind fun r => (kindOf l.roles r).toOption

def component? (l : Listing) (c : CompId) : Option Component :=
  (l.row? c).bind fun r => (kindOf l.roles r).toOption.map r.place

section Rows

variable {rows : List RawComponent} {r : RawComponent} {c : CompId}

theorem rowIn?_append (rows : List RawComponent) (r : RawComponent) (c : CompId) :
    rowIn? (rows ++ [r]) c = (rowIn? rows c).or (if r.id.toNat = c then some r else none) := by
  rw [rowIn?, find?_append, ← rowIn?]
  congr 1
  rw [find?_singleton]
  simp only [beq_iff_eq]

theorem id_of_rowIn? (h : rowIn? rows c = some r) : r.id.toNat = c ∧ r ∈ rows := by
  rw [rowIn?] at h
  exact ⟨by simpa using find?_some h, mem_of_find?_eq_some h⟩

end Rows

/-! ## From rows to components -/

structure Placed (roles : List String) (rows : List RawComponent) (net : Network) : Prop where
  parts : net.parts = { roles }
  kinds : ∀ r ∈ rows, ∃ kind, kindOf roles r = .ok kind
  get? : ∀ c, net.get? c = (rowIn? rows c).bind fun r => (kindOf roles r).toOption.map r.place

theorem addComponent_ensures {roles : List String} {rows : List RawComponent} {net : Network}
    {raw : RawComponent} (h : Placed roles rows net) :
    (addComponent net raw).Ensures (Placed roles (rows ++ [raw])) := by
  have hroles : net.roles = roles := congrArg Network.roles h.parts
  intro net' hnet'
  unfold addComponent at hnet'
  obtain ⟨kind, hkind, hnet'⟩ := exists_of_bind_eq_ok hnet'
  rw [hroles] at hkind
  have hadd : ∃ net₁, net.insert? raw.id.toNat (raw.place kind) = some net₁ ∧ net₁ = net' := by
    dsimp only at hnet'
    split at hnet'
    · next net₁ hins => exact ⟨net₁, hins, Except.ok.inj hnet'⟩
    · cases hnet'
  obtain ⟨net₁, hins, rfl⟩ := hadd
  have hparts : net₁.parts = net.parts ∧ net.get? raw.id.toNat = none := by
    unfold Network.insert? at hins
    split at hins
    · cases hins
    next hc =>
    cases hins
    exact ⟨rfl, Network.get?_eq_none_iff.mpr (Bool.eq_false_iff.mpr hc)⟩
  refine ⟨hparts.1.trans h.parts, fun r hr => ?_, fun c => ?_⟩
  · rcases mem_append.mp hr with hr | hr
    · exact h.kinds r hr
    · rw [mem_singleton.mp hr]
      exact ⟨kind, hkind⟩
  rw [Network.get?_insert? hins, rowIn?_append]
  by_cases hc : c = raw.id.toNat
  · -- the number was free, so no row before this one has it
    have hnone : rowIn? rows c = none := by
      cases hrow : rowIn? rows c with
      | none => rfl
      | some r =>
        obtain ⟨kr, hkr⟩ := h.kinds r (id_of_rowIn? hrow).2
        have hget := h.get? c
        rw [hc, hparts.2, ← hc, hrow, Option.bind_some, hkr] at hget
        cases hget
    rw [if_pos hc, hnone, Option.none_or, if_pos hc.symm, Option.bind_some, hkind]
    rfl
  · rw [if_neg hc, if_neg (Ne.symm hc), Option.or_none]
    exact h.get? c

theorem placed_ensures (l : Listing) :
    (l.components.toList.foldlM addComponent { roles := l.roles } : Checked Network).Ensures
      (Placed l.roles l.components.toList) := by
  have h := Checked.partly.foldlM (f := addComponent)
    (fun rest net => ∃ rows, rows ++ rest = l.components.toList ∧ Placed l.roles rows net)
    (fun raw rest net hinv => ?_) l.components.toList { roles := l.roles }
    ⟨[], rfl, rfl, forall_mem_nil _, fun _ => rfl⟩
  · refine Checked.Ensures.mono h ?_
    rintro net ⟨rows, hrows, hnet⟩
    rwa [← hrows, append_nil]
  · obtain ⟨rows, hrows, hnet⟩ := hinv
    refine Checked.Ensures.mono (addComponent_ensures hnet) fun net' hnet' => ?_
    exact ⟨rows ++ [raw], by rw [append_assoc]; exact hrows, hnet'⟩

end Listing

namespace Listing

section Placed

variable {l : Listing} {net : Network}
variable (h : Placed l.roles l.components.toList net)
include h

theorem Placed.get?_of_row? {c : CompId} {r : RawComponent} (hr : l.row? c = some r) :
    ∃ kind, kindOf l.roles r = .ok kind ∧ net.get? c = some (r.place kind) := by
  obtain ⟨kind, hkind⟩ := h.kinds r (id_of_rowIn? hr).2
  refine ⟨kind, hkind, ?_⟩
  rw [h.get? c, ← row?, hr, Option.bind_some, hkind]
  rfl

theorem Placed.get?_of_row?_none {c : CompId} (hr : l.row? c = none) : net.get? c = none := by
  rw [h.get? c, ← row?, hr]
  rfl

theorem Placed.inputsOf (c : CompId) : net.inputsOf c = l.inputsOf c := by
  cases hr : l.row? c with
  | none => rw [Network.inputsOf, h.get?_of_row?_none hr, Listing.inputsOf, hr]; rfl
  | some r =>
    obtain ⟨kind, -, hk⟩ := h.get?_of_row? hr
    rw [Network.inputsOf_of_get? hk, Listing.inputsOf, hr]
    rfl

theorem Placed.outputsOf (c : CompId) : net.outputsOf c = l.outputsOf c := by
  cases hr : l.row? c with
  | none => rw [Network.outputsOf, h.get?_of_row?_none hr, Listing.outputsOf, hr]; rfl
  | some r =>
    obtain ⟨kind, -, hk⟩ := h.get?_of_row? hr
    rw [Network.outputsOf_of_get? hk, Listing.outputsOf, hr]
    rfl

end Placed

end Listing

/-! ## Edges -/

namespace Network

def Linked (net : Network) : Prop := ∀ a b, b ∈ net.outputsOf a ↔ a ∈ net.inputsOf b

/-- A loop that looks up components and checks that `c` is listed at each of them. -/
theorem answered_eq_ok_iff {net : Network} {c : CompId} (ends : Component → List CompId)
    {missing unanswered : CompId → Fault} {os : List CompId} {rest : Checked Unit} :
    (do
      for o in os do
        match net.get? o with
        | none => throw (missing o)
        | some k => if !(ends k).contains c then throw (unanswered o)
      rest : Checked Unit) = .ok () ↔ (∀ o ∈ os, c ∈ (net.get? o).elim [] ends) ∧ rest = .ok () := by
  rw [Checked.check_eq_ok_iff, Checked.forIn_eq_ok_iff (p := fun o => c ∈ (net.get? o).elim [] ends) os
    fun o => ?_]
  cases net.get? o with
  | none => exact .inr ⟨not_mem_nil, _, rfl⟩
  | some k =>
    by_cases hc : c ∈ ends k
    · exact .inl ⟨hc, by simp [hc]; rfl⟩
    · exact .inr ⟨hc, _, by simp [hc]; rfl⟩

theorem checkEdgesOf_eq_ok_iff {net : Network} {c : CompId} {k : Component} : net.checkEdgesOf c k = .ok () ↔
      (∀ o ∈ k.outputs, c ∈ net.inputsOf o) ∧ ∀ i ∈ k.inputs, c ∈ net.outputsOf i :=
  (answered_eq_ok_iff Component.inputs).trans
    (and_congr_right' ((answered_eq_ok_iff Component.outputs).trans (and_iff_left rfl)))

theorem checkEdges_eq_ok_iff {net : Network} : net.checkEdges = .ok () ↔ net.Linked := by
  have hall : net.checkEdges = .ok () ↔ ∀ c k, net.get? c = some k →
      (∀ o ∈ k.outputs, c ∈ net.inputsOf o) ∧ ∀ i ∈ k.inputs, c ∈ net.outputsOf i := by
    rw [forall_components, checkEdges, Checked.forM_eq_ok_iff]
    simp only [checkEdgesOf_eq_ok_iff]
  rw [hall]
  constructor
  · intro h a b
    constructor
    · intro hab
      obtain ⟨k, hk⟩ := contains_iff.mp (contains_of_mem_outputsOf hab)
      rw [outputsOf_of_get? hk] at hab
      exact (h a k hk).1 b hab
    · intro hab
      obtain ⟨k, hk⟩ := contains_iff.mp (contains_of_mem_inputsOf hab)
      rw [inputsOf_of_get? hk] at hab
      exact (h b k hk).2 a hab
  · intro h c k hk
    refine ⟨fun o ho => (h c o).mp ?_, fun i hi => (h i c).mpr ?_⟩
    · rwa [outputsOf_of_get? hk]
    · rwa [inputsOf_of_get? hk]

end Network

namespace Listing

/-- The components of an accepted listing are those of its rows, and each end of every edge knows of the
other. -/
theorem assemble_ensures (l : Listing) : l.assemble.Ensures fun net =>
    Placed l.roles l.components.toList net ∧ net.Linked := by
  intro net hnet
  obtain ⟨net₁, hplace, hnet⟩ := exists_of_bind_eq_ok hnet
  obtain ⟨hedges, hnet⟩ := Checked.check_eq_ok_iff.mp hnet
  cases hnet
  exact ⟨placed_ensures l _ hplace, Network.checkEdges_eq_ok_iff.mp hedges⟩

end Listing

end GameNet
