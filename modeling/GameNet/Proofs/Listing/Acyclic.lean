import GameNet.Proofs.Compile.Start

/-!
Listings whose wiring can be checked: balance is a matter of the rows alone, and a rank for every
component shows that there is no cycle.
-/

namespace GameNet.Listing

section Rows

variable {l : Listing} {a b c : CompId}

theorem mem_ids_of_row? {r : RawComponent} (h : l.row? c = some r) :
    c ∈ l.components.toList.map (·.id.toNat) := by
  obtain ⟨hid, hmem⟩ := id_of_rowIn? h
  exact List.mem_map.mpr ⟨r, hmem, hid⟩

theorem mem_ids_of_mem_inputsOf (h : a ∈ l.inputsOf c) : c ∈ l.components.toList.map (·.id.toNat) := by
  unfold inputsOf at h
  cases hr : l.row? c with
  | none => rw [hr] at h; cases h
  | some r => exact mem_ids_of_row? hr

theorem mem_ids_of_mem_outputsOf (h : b ∈ l.outputsOf c) : c ∈ l.components.toList.map (·.id.toNat) := by
  unfold outputsOf at h
  cases hr : l.row? c with
  | none => rw [hr] at h; cases h
  | some r => exact mem_ids_of_row? hr

theorem balanced_iff : l.Balanced ↔ ∀ c ∈ l.components.toList.map (·.id.toNat),
    (∀ b ∈ l.outputsOf c, (l.outputsOf c).count b = (l.inputsOf b).count c) ∧
      ∀ a ∈ l.inputsOf c, (l.outputsOf a).count c = (l.inputsOf c).count a := by
  refine ⟨fun h c _ => ⟨fun b _ => h c b, fun a _ => h a c⟩, fun h a b => ?_⟩
  by_cases hout : b ∈ l.outputsOf a
  · exact (h a (mem_ids_of_mem_outputsOf hout)).1 b hout
  by_cases hin : a ∈ l.inputsOf b
  · exact (h b (mem_ids_of_mem_inputsOf hin)).2 a hin
  · rw [List.count_eq_zero.mpr hout, List.count_eq_zero.mpr hin]

instance (l : Listing) : Decidable l.Balanced := decidable_of_iff' _ balanced_iff

theorem listsBase_iff : l.ListsBase c ↔ ((l.row? c).any fun r =>
    decide (r.op = .proposition ∧ r.label.map (·.1) = some .base)) = true := by
  simp only [Option.any_eq_true, decide_eq_true_eq]
  constructor
  · rintro ⟨r, text, hr, hop, hl⟩
    exact ⟨r, hr, hop, by rw [hl]; rfl⟩
  rintro ⟨r, hr, hop, hl⟩
  obtain ⟨⟨part, text⟩, hl, rfl⟩ := Option.map_eq_some_iff.mp hl
  exact ⟨r, text, hr, hop, hl⟩

instance (l : Listing) (c : CompId) : Decidable (l.ListsBase c) := decidable_of_iff' _ listsBase_iff

def Ranked (l : Listing) (rank : CompId → Nat) : Prop :=
  ∀ b ∈ l.components.toList.map (·.id.toNat), ∀ a ∈ l.inputsOf b,
    ¬ (l.op? a = some .transition ∧ l.ListsBase b) → rank a < rank b

instance (l : Listing) (rank : CompId → Nat) : Decidable (l.Ranked rank) :=
  inferInstanceAs (Decidable (∀ _ ∈ _, _))

theorem Ranked.acyclic {rank : CompId → Nat} (h : l.Ranked rank) : l.Acyclic := by
  have hpath : ∀ a b, Relation.TransGen l.Feeds a b → rank a < rank b := by
    intro a b hab
    induction hab with
    | single hab => exact h _ (mem_ids_of_mem_inputsOf hab.1) _ hab.1 hab.2
    | tail _ hbc ih => exact Nat.lt_trans ih (h _ (mem_ids_of_mem_inputsOf hbc.1) _ hbc.1 hbc.2)
  exact fun c hc => Nat.lt_irrefl _ (hpath c c hc)

end Rows

/-! ## A small game -/

def lamp : Listing where
  roles := ["hand"]
  components := #[
    { id := 0, count := 0, op := .transition, inputs := [5], outputs := [1] },
    { id := 1, count := 0, op := .proposition, inputs := [0], outputs := [4, 5, 6, 7]
      label := some (.base, "(true lit)") },
    { id := 2, count := 0, op := .proposition, outputs := [5]
      label := some (.input, "(does hand press)") },
    { id := 3, count := 0, op := .proposition, inputs := [4]
      label := some (.legal, "(legal hand press)") },
    { id := 4, count := 0, op := .not, inputs := [1], outputs := [3] },
    { id := 5, count := 0, op := .or, inputs := [1, 2], outputs := [0] },
    { id := 6, count := 0, op := .proposition, inputs := [1], label := some (.terminal, "terminal") },
    { id := 7, count := 0, op := .proposition, inputs := [1], label := some (.goal, "(goal hand 100)") }]

theorem lamp_balanced : lamp.Balanced := by decide +kernel

theorem lamp_acyclic : lamp.Acyclic := by
  have h : lamp.Ranked fun c => [3, 0, 0, 2, 1, 1, 1, 1].getD c 0 := by decide +kernel
  exact h.acyclic

def relay : Listing where
  roles := ["hand"]
  components := #[
    { id := 0, count := 0, op := .transition, inputs := [8], outputs := [1] },
    { id := 1, count := 0, op := .proposition, inputs := [0], outputs := [2, 9, 10]
      label := some (.base, "(true left)") },
    { id := 2, count := 0, op := .transition, inputs := [1], outputs := [3] },
    { id := 3, count := 0, op := .proposition, inputs := [2], outputs := [8, 9, 10, 11]
      label := some (.base, "(true right)") },
    { id := 4, count := 0, op := .proposition, outputs := [8], label := some (.init, "init") },
    { id := 5, count := 0, op := .proposition, label := some (.input, "(does hand pass)") },
    { id := 6, count := 0, op := .proposition, inputs := [9], label := some (.legal, "(legal hand pass)") },
    { id := 7, count := 0, op := .proposition, inputs := [10], label := some (.terminal, "terminal") },
    { id := 8, count := 0, op := .or, inputs := [4, 3], outputs := [0] },
    { id := 9, count := 0, op := .or, inputs := [1, 3], outputs := [6] },
    { id := 10, count := 0, op := .and, inputs := [1, 3], outputs := [7] },
    { id := 11, count := 0, op := .proposition, inputs := [3], label := some (.goal, "(goal hand 100)") }]

theorem relay_balanced : relay.Balanced := by decide +kernel

theorem relay_acyclic : relay.Acyclic := by
  have h : relay.Ranked fun c => [2, 0, 1, 0, 0, 0, 2, 2, 1, 1, 1, 1].getD c 0 := by decide +kernel
  exact h.acyclic

end GameNet.Listing
