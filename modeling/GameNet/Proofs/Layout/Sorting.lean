import GameNet.Proofs.Layout.Renaming

/-!
Sorting the bases and the legals of a network. Transitions and initial state follow their bases, and
inputs follow their legals.
-/

namespace GameNet.Network

open List

theorem forall₂_comp {α β γ : Type} {A : α → β → Prop} {B : β → γ → Prop} {R : α → γ → Prop}
    {as : List α} {bs : List β} {cs : List γ} (h : List.Forall₂ A as bs) (h' : List.Forall₂ B bs cs)
    (hR : ∀ a b c, A a b → B b c → R a c) : List.Forall₂ R as cs := by
  induction h generalizing cs with
  | nil => cases h'; exact .nil
  | cons hab _ ih =>
    cases h' with
    | cons hbc hrest => exact .cons (hR _ _ _ hab hbc) (ih hrest)

/-! ## Keys -/

def printed (net : Network) (c : CompId) : String := (net.termText? c).getD ""

def keyOf (net : Network) (part : Nat) (c : CompId) : TermKey :=
  ((((net.get? c).bind (·.term?)).bind (·.nth? part)).map Term.sortGroup |>.getD "", net.printed c)

def inTermOrder (net : Network) (part : Nat) (cs : List CompId) : List CompId :=
  ((sortBy (fun a b => TermKey.le a.1 b.1) (cs.map fun c => (net.keyOf part c, c))).map (·.2)).reverse

section Keys

variable {net : Network} {part : Nat} {c : CompId} {cs cs' : List CompId}

theorem termKey_yields (hc : net.contains c) : net.termKey part c = .ok (net.keyOf part c) := by
  obtain ⟨k, hk⟩ := contains_iff.mp hc
  rw [termKey, get_of_get? hk, keyOf, printed, termText?, hk]
  rfl

theorem inTermOrder_perm (net : Network) (part : Nat) (cs : List CompId) :
    (net.inTermOrder part cs).Perm cs := by
  refine (reverse_perm _).trans (((sortBy_perm _ _).map _).trans (.of_eq ?_))
  rw [map_map]
  exact map_id _

theorem sortByTerm_yields (h : cs.length ≤ 1 ∨ ∀ c ∈ cs, net.contains c) :
    net.sortByTerm part cs = .ok (net.inTermOrder part cs) := by
  rcases cs with _ | ⟨c, _ | ⟨d, cs⟩⟩
  · rfl
  · rfl
  have hlive := h.resolve_left (by simp)
  have hkeyed := Checked.mapM_yields (f := fun c => do return (← net.termKey part c, c))
    (g := fun c => (net.keyOf part c, c)) (c :: d :: cs) fun c hc => by
      rw [termKey_yields (hlive c hc)]
      rfl
  rw [sortByTerm, hkeyed]
  · rfl
  · simp
  · simp

theorem live_of_sortByTerm (h : net.sortByTerm part cs = .ok cs') :
    cs.length ≤ 1 ∨ ∀ c ∈ cs, net.contains c := by
  unfold sortByTerm at h
  split at h
  · exact .inl (by simp)
  · exact .inl (by simp)
  refine .inr fun c hc => ?_
  obtain ⟨keyed, hk, -⟩ := exists_of_bind_eq_ok h
  obtain ⟨x, -, hx⟩ := exists_of_mem_right (Checked.mapM_eq_ok hk).flip hc
  obtain ⟨key, hkey, -⟩ := exists_of_bind_eq_ok hx
  obtain ⟨k, hget, -⟩ := exists_of_bind_eq_ok hkey
  exact contains_of_get? (get?_of_get hget)

theorem sortByTerm_ensures (net : Network) (part : Nat) (cs : List CompId) :
    (net.sortByTerm part cs).Ensures (·.Perm cs) := by
  intro cs' h
  rw [sortByTerm_yields (live_of_sortByTerm h)] at h
  cases h
  exact inTermOrder_perm net part cs

end Keys

/-! ## Bases -/

theorem reorderBases_ensures (net : Network) : net.reorderBases.Ensures (Renames id net) := by
  unfold reorderBases
  refine Checked.Ensures.bind (sortByTerm_ensures net 1 net.bases) fun bases hbases => ?_
  refine Checked.Ensures.bind (P := List.Forall₂ (fun b i => net.bases[i]? = some b) bases)
    (Checked.partly.mapM bases fun b _ => ?_) fun order horder => ?_
  · dsimp only [Checked.partly]
    split
    · next i hi =>
      refine .pure ?_
      obtain ⟨hlt, hb, -⟩ := findIdx?_eq_some_iff_getElem.mp hi
      rw [getElem?_eq_getElem hlt, beq_iff_eq.mp hb]
    · exact .throw
  refine Checked.Ensures.bind (P := List.Forall₂ (fun i t => net.transitions[i]? = some t) order)
    (Checked.partly.mapM order fun i _ => ?_) fun transitions htrans => ?_
  · dsimp only [Checked.partly]
    split
    · next t ht => exact .pure ht
    · exact .throw
  refine .pure
    { injective := Function.injective_id
      component := fun c k hk => ⟨k.level, hk.trans (by rw [Component.rename_id])⟩
      onto := fun d hd => ⟨d, hd, rfl⟩
      roles := rfl
      bases := ?_
      driven := fun R hR => ?_
      start := fun R hR => ?_
      inputs := fun i => by simp
      players := ?_
      terminal := rfl
      init := by rw [Option.map_id]; rfl }
  · rw [map_id]
    exact hbases
  · exact forall₂_comp horder htrans fun b i t hb ht => forall₂_getElem? hR hb ht
  · refine forall₂_comp horder (forall₂_map_right_iff.mpr (forall₂_same.mpr fun _ _ => rfl))
      fun b i v hb (hv : net.initialState[i]?.getD false = v) => ?_
    obtain ⟨hlt, -⟩ := List.getElem?_eq_some_iff.mp hb
    have hlt' : i < net.initialState.length := hR.length_eq ▸ hlt
    rw [getElem?_eq_getElem hlt', Option.getD_some] at hv
    exact forall₂_getElem? hR hb (hv ▸ getElem?_eq_getElem hlt')
  · rw [forall₂_same]
    exact fun p _ => ⟨rfl, by rw [map_id], by rw [map_id]⟩

/-! ## Legals -/

def Aligned (net : Network) : Prop := ∀ p ∈ net.players,
  List.Forall₂ (fun l i => net.pairedInput? l = some i) p.legals p.inputs

section Legals

variable {net : Network}

theorem pairedInputOf_eq_ok_iff {l i : CompId} :
    net.pairedInputOf l = .ok i ↔ net.pairedInput? l = some i := by
  cases hk : net.get? l with
  | none =>
    rw [pairedInputOf, get, pairedInput?, hk]
    exact iff_of_false (fun h => by cases h) fun h => by cases h
  | some k =>
    rw [pairedInputOf, get_of_get? hk, pairedInput?_of_get? hk]
    dsimp only [bind, Except.bind]
    cases k.proposition?.bind (·.pairedInput) with
    | none => exact iff_of_false (fun h => by cases h) fun h => by cases h
    | some j => exact ⟨fun h => congrArg some (Except.ok.inj h), fun h => congrArg Except.ok (Option.some.inj h)⟩

theorem reorderLegals_ensures (hc : net.Cast) : net.reorderLegals.Ensures fun net' =>
    Renames id net net' ∧ net'.Aligned := by
  unfold reorderLegals
  refine Checked.Ensures.bind (P := List.Forall₂ (fun p p' => p'.name = p.name ∧ p'.goals = p.goals ∧
      p'.legals.Perm p.legals ∧ List.Forall₂ (fun l i => net.pairedInput? l = some i)
        p'.legals p'.inputs) net.players) (Checked.partly.mapM net.players fun p _ => ?_)
    fun players hplayers => .pure ⟨?_, ?_⟩
  · refine Checked.Ensures.bind (sortByTerm_ensures net 2 p.legals) fun legals hl => ?_
    refine Checked.Ensures.bind (Checked.partly.mapM legals fun l _ _ => pairedInputOf_eq_ok_iff.mp)
      fun inputs hi => ?_
    exact .pure ⟨rfl, rfl, hl, hi⟩
  · have hplaced : ∀ i ∈ players.flatMap (·.inputs), i ∈ net.inputs := by
      intro i hi
      obtain ⟨p', hp', hi⟩ := mem_flatMap.mp hi
      obtain ⟨p, -, -, -, -, hpair⟩ := exists_of_mem_right hplayers hp'
      obtain ⟨l, -, hl⟩ := exists_of_mem_right hpair hi
      exact (hc.paired l i hl).2.1
    refine
      { injective := Function.injective_id
        component := fun c k hk => ⟨k.level, hk.trans (by rw [Component.rename_id])⟩
        onto := fun d hd => ⟨d, hd, rfl⟩
        roles := rfl
        bases := by rw [map_id]
        driven := fun R hR => hR
        start := fun R hR => hR
        inputs := fun i => ?_
        players := ?_
        terminal := rfl
        init := by rw [Option.map_id]; rfl }
    · dsimp only
      constructor
      · intro hi
        rcases mem_append.mp hi with hi | hi
        · exact ⟨i, hplaced i hi, rfl⟩
        · exact ⟨i, (mem_filter.mp hi).1, rfl⟩
      rintro ⟨j, hj, hij⟩
      rw [hij, id]
      by_cases hp : j ∈ players.flatMap (·.inputs)
      · exact mem_append_left _ hp
      refine mem_append_right _ (mem_filter.mpr ⟨hj, ?_⟩)
      rw [contains_eq_mem, decide_eq_false hp]
      rfl
    · refine hplayers.imp fun p p' hp => ⟨hp.1, ?_, ?_⟩
      · rw [map_id]
        exact hp.2.2.1
      · rw [map_id]
        exact hp.2.1
  · intro p' hp'
    obtain ⟨p, -, -, -, -, hpair⟩ := exists_of_mem_right hplayers hp'
    exact hpair

end Legals

end GameNet.Network
