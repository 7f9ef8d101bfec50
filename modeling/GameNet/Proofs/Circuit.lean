import GameNet.Proofs.Wiring
import Mathlib.Data.Set.Card
import Mathlib.Logic.Relation

/-!
Networks as circuits: acyclic wiring, and the boolean function computed at every component.

A component without inputs reads what an assignment gives it. All others read their inputs, by their sort.
-/

namespace GameNet

open List

def Op.read (op : Op) (inputs : List CompId) (v : CompId → Bool) : Bool :=
  match op with
  | .and => inputs.all v
  | .not => !inputs.any v
  | _ => inputs.any v

namespace Op

variable {inputs : List CompId}

theorem read_congr (op : Op) {inputs inputs' : List CompId} {v v' : CompId → Bool}
    (h : ∀ b, (∃ a ∈ inputs, v a = b) ↔ ∃ a ∈ inputs', v' a = b) : op.read inputs v = op.read inputs' v' := by
  have hall : inputs.all v = inputs'.all v' := by
    rw [Bool.eq_iff_iff, all_eq_true, all_eq_true]
    have hf := not_congr (h false)
    simpa only [not_exists, not_and, Bool.not_eq_false] using hf
  have hany : inputs.any v = inputs'.any v' := by
    rw [Bool.eq_iff_iff, any_eq_true, any_eq_true]
    exact h true
  cases op <;> simp only [read, hall, hany]

theorem read_of_mem_iff (op : Op) {inputs inputs' : List CompId} (v : CompId → Bool)
    (h : ∀ a, a ∈ inputs ↔ a ∈ inputs') : op.read inputs v = op.read inputs' v :=
  op.read_congr fun b => by simp only [h]

theorem read_of_forall_eq (op : Op) {v v' : CompId → Bool}
    (h : ∀ a ∈ inputs, v a = v' a) : op.read inputs v = op.read inputs v' :=
  op.read_congr fun b => by
    constructor <;> rintro ⟨a, ha, rfl⟩
    · exact ⟨a, ha, (h a ha).symm⟩
    · exact ⟨a, ha, h a ha⟩

theorem read_and {v : CompId → Bool} : Op.and.read inputs v ↔ ∀ a ∈ inputs, v a := all_eq_true

theorem read_or {v : CompId → Bool} : Op.or.read inputs v ↔ ∃ a ∈ inputs, v a := any_eq_true

/-- An AND that reads an AND, or an OR that reads an OR, may as well read its inputs. -/
theorem read_nested {op : Op} (hop : op = .and ∨ op = .or) {g : CompId} {inner outer flat : List CompId}
    {v : CompId → Bool} {R : CompId → Prop} (hg : v g = op.read inner v)
    (houter : ∀ a, a ∈ outer ↔ a = g ∨ R a) (hflat : ∀ a, a ∈ flat ↔ a ∈ inner ∨ R a) :
    op.read outer v = op.read flat v := by
  rw [Bool.eq_iff_iff]
  rcases hop with rfl | rfl
  · simp only [read_and, houter, hflat, or_imp, forall_and, forall_eq, hg]
  · simp only [read_or, houter, hflat, or_and_right, exists_or, exists_eq_left, hg]

theorem read_singleton (op : Op) (h : op ≠ .not) (a : CompId) (v : CompId → Bool) : op.read [a] v = v a := by
  cases op <;> simp_all [read]

theorem read_not_singleton (a : CompId) (v : CompId → Bool) : Op.not.read [a] v = !v a := by
  simp [read]

end Op

namespace Network

variable {net : Network}

/-! ## Acyclic networks -/

def Feeds (net : Network) (a b : CompId) : Prop := a ∈ net.inputsOf b

def Acyclic (net : Network) : Prop := ∀ c, ¬ Relation.TransGen net.Feeds c c

def Ranked (net : Network) (rank : CompId → Nat) : Prop :=
  ∀ a b, a ∈ net.inputsOf b → rank a < rank b

theorem ranked_iff {rank : CompId → Nat} :
    net.Ranked rank ↔ ∀ b ∈ net.ids, ∀ a ∈ net.inputsOf b, rank a < rank b :=
  ⟨fun h b _ a hab => h a b hab, fun h a b hab => h b (mem_ids.mpr (contains_of_mem_inputsOf hab)) a hab⟩

instance (net : Network) (rank : CompId → Nat) : Decidable (net.Ranked rank) :=
  decidable_of_iff' _ ranked_iff

theorem Ranked.acyclic {rank : CompId → Nat} (h : net.Ranked rank) : net.Acyclic := by
  have rises : ∀ a b, Relation.TransGen net.Feeds a b → rank a < rank b := by
    intro a b hab
    induction hab with
    | single hab => exact h _ _ hab
    | tail _ hbc ih => exact ih.trans (h _ _ hbc)
  exact fun c hc => Nat.lt_irrefl _ (rises c c hc)

theorem Acyclic.irrefl (h : net.Acyclic) (c : CompId) : net.edgesIn c c = 0 := by
  by_contra hne
  exact h c (.single (edgesIn_pos.mp (Nat.pos_of_ne_zero hne)))

/-- Without cycles the number of ancestors is a rank, if all of them lie in a finite set. -/
theorem exists_rank_of_acyclic {R : CompId → CompId → Prop} (s : Finset CompId)
    (hs : ∀ a b, R a b → a ∈ s) (h : ∀ c, ¬ Relation.TransGen R c c) :
    ∃ rank : CompId → Nat, (∀ a b, R a b → rank a < rank b) ∧ ∀ c, rank c ≤ s.card := by
  let ancestors : CompId → Set CompId := fun c => { a | Relation.TransGen R a c }
  have hsub : ∀ c, ancestors c ⊆ s := fun c a ha => by
    obtain ⟨b, hab, -⟩ := Relation.TransGen.head'_iff.mp ha
    exact Finset.mem_coe.mpr (hs a b hab)
  have hfin : ∀ c, (ancestors c).Finite := fun c => s.finite_toSet.subset (hsub c)
  refine ⟨fun c => (ancestors c).ncard, fun a b hab => ?_, fun c => ?_⟩
  · apply Set.ncard_lt_ncard _ (hfin b)
    refine ⟨fun x hx => Relation.TransGen.tail hx hab, fun hle => ?_⟩
    exact h a (hle (Relation.TransGen.single hab))
  · calc (ancestors c).ncard ≤ (s : Set CompId).ncard := Set.ncard_le_ncard (hsub c) s.finite_toSet
      _ = s.card := Set.ncard_coe_finset s

theorem Acyclic.exists_rank (h : net.Acyclic) (hb : net.Balanced) :
    ∃ rank, net.Ranked rank ∧ ∀ c, rank c ≤ net.capacity := by
  obtain ⟨rank, hrank, hle⟩ := exists_rank_of_acyclic (Finset.range net.capacity) (fun a b hab => by
    obtain ⟨k, hk⟩ := contains_iff.mp (hb.contains_source hab)
    exact Finset.mem_range.mpr (lt_capacity_of_get? hk)) h
  exact ⟨rank, hrank, fun c => (hle c).trans (Finset.card_range _).le⟩

/-- Induction along the edges: the inputs of a component come before it. -/
theorem Acyclic.induct_inputs (h : net.Acyclic) (hb : net.Balanced) {P : CompId → Prop}
    (step : ∀ c, (∀ a ∈ net.inputsOf c, P a) → P c) (c : CompId) : P c := by
  obtain ⟨rank, hrank, -⟩ := h.exists_rank hb
  induction hn : rank c using Nat.strongRecOn generalizing c with
  | ind n ih =>
    subst hn
    exact step c fun a hac => ih (rank a) (hrank a c hac) a rfl

/-- Induction against the edges: what a component feeds comes before it. -/
theorem Acyclic.induct_outputs (h : net.Acyclic) (hb : net.Balanced) {P : CompId → Prop}
    (step : ∀ c, (∀ o ∈ net.outputsOf c, P o) → P c) (c : CompId) : P c := by
  obtain ⟨rank, hrank, hle⟩ := h.exists_rank hb
  -- downstream ranks rise, and they have a bound
  induction hn : net.capacity - rank c using Nat.strongRecOn generalizing c with
  | ind n ih =>
    refine step c fun o hco => ih (net.capacity - rank o) ?_ o rfl
    have hlt := hrank c o (hb.mem_iff.mp hco)
    have hcap := hle o
    omega

/-- Without asking that edges are listed at both ends, ranks still rise towards what reads a component
that has inputs itself. -/
theorem Acyclic.exists_depth (h : net.Acyclic) : ∃ depth : CompId → Nat,
      (∀ a b, a ∈ net.inputsOf b → net.inputsOf a ≠ [] → depth a < depth b) ∧
      ∀ c, depth c ≤ net.capacity := by
  obtain ⟨depth, hdepth, hle⟩ := exists_rank_of_acyclic
    (R := fun a b => a ∈ net.inputsOf b ∧ net.inputsOf a ≠ []) (Finset.range net.capacity)
    (fun a b hab => by
      obtain ⟨k, hk⟩ := contains_iff.mp (contains_of_fed hab.2)
      exact Finset.mem_range.mpr (lt_capacity_of_get? hk))
    fun c hc => h c (Relation.TransGen.mono (fun _ _ hab => hab.1) _ _ hc)
  exact ⟨depth, fun a b hab hfed => hdepth a b ⟨hab, hfed⟩, fun c => (hle c).trans (Finset.card_range _).le⟩

/-! ## Valuations -/

def Obeys (net : Network) (v : CompId → Bool) : Prop :=
  ∀ c op, net.op? c = some op → net.inputsOf c ≠ [] → v c = op.read (net.inputsOf c) v

def evalWithin (net : Network) (σ : CompId → Bool) : (n : Nat) → CompId → Bool
  | 0, c => σ c
  | n + 1, c =>
    match net.get? c with
    | none => σ c
    | some k => if k.inputs.isEmpty then σ c else k.op.read k.inputs (net.evalWithin σ n)

/-- The value at `c` when components without inputs read `σ`. -/
def eval (net : Network) (σ : CompId → Bool) (c : CompId) : Bool :=
  net.evalWithin σ (net.capacity + 1) c

section Valuations

variable {net : Network} {σ v v' : CompId → Bool} {c : CompId}

theorem evalWithin_of_source (h : net.inputsOf c = []) (n : Nat) : net.evalWithin σ n c = σ c := by
  cases n with
  | zero => rfl
  | succ n =>
    rw [evalWithin]
    cases hk : net.get? c with
    | none => rfl
    | some k =>
      rw [inputsOf_of_get? hk] at h
      simp [h]

theorem evalWithin_of_fed {op : Op} (hop : net.op? c = some op) (h : net.inputsOf c ≠ []) (n : Nat) :
    net.evalWithin σ (n + 1) c = op.read (net.inputsOf c) (net.evalWithin σ n) := by
  obtain ⟨k, hk, rfl⟩ := Option.map_eq_some_iff.mp hop
  rw [inputsOf_of_get? hk] at h ⊢
  simp only [evalWithin, hk, List.isEmpty_iff, h, if_false]

theorem Obeys.unique (hv : net.Obeys v) (hv' : net.Obeys v') (hb : net.Balanced) (ha : net.Acyclic)
    (h : ∀ c, net.contains c → net.inputsOf c = [] → v c = v' c) (c : CompId) (hc : net.contains c) :
    v c = v' c := by
  induction c using ha.induct_inputs hb with
  | step c ih =>
    by_cases hi : net.inputsOf c = []
    · exact h c hc hi
    obtain ⟨k, hk⟩ := contains_iff.mp hc
    rw [hv c _ (op?_of_get? hk) hi, hv' c _ (op?_of_get? hk) hi]
    exact Op.read_of_forall_eq _ fun a hac => ih a hac (hb.contains_source hac)

theorem evalWithin_stable {depth : CompId → Nat}
    (hr : ∀ a b, a ∈ net.inputsOf b → net.inputsOf a ≠ [] → depth a < depth b) (c : CompId) (n m : Nat)
    (hn : depth c < n) (hm : depth c < m) : net.evalWithin σ n c = net.evalWithin σ m c := by
  induction n generalizing c m with
  | zero => omega
  | succ n ih =>
    by_cases hi : net.inputsOf c = []
    · rw [evalWithin_of_source hi, evalWithin_of_source hi]
    obtain ⟨k, hk⟩ := contains_iff.mp (contains_of_fed hi)
    obtain ⟨m, rfl⟩ : ∃ m', m = m' + 1 := ⟨m - 1, by omega⟩
    rw [evalWithin_of_fed (op?_of_get? hk) hi, evalWithin_of_fed (op?_of_get? hk) hi]
    apply Op.read_of_forall_eq
    intro b hbc
    by_cases hfed : net.inputsOf b = []
    · rw [evalWithin_of_source hfed, evalWithin_of_source hfed]
    · have := hr b c hbc hfed
      exact ih b m (by omega) (by omega)

theorem eval_of_source (σ : CompId → Bool) (h : net.inputsOf c = []) :
    net.eval σ c = σ c := evalWithin_of_source h _

theorem obeys_eval_of_depth {depth : CompId → Nat}
    (hr : ∀ a b, a ∈ net.inputsOf b → net.inputsOf a ≠ [] → depth a < depth b)
    (hle : ∀ c, depth c ≤ net.capacity) (σ : CompId → Bool) : net.Obeys (net.eval σ) := by
  intro c op hop hi
  rw [eval, evalWithin_of_fed hop hi]
  apply Op.read_of_forall_eq
  intro a hac
  by_cases hfed : net.inputsOf a = []
  · rw [evalWithin_of_source hfed, eval_of_source σ hfed]
  have h1 := hr a c hac hfed
  have h2 := hle c
  exact evalWithin_stable hr a _ _ (by omega) (by omega)

theorem obeys_eval (hb : net.Balanced) (ha : net.Acyclic) (σ : CompId → Bool) : net.Obeys (net.eval σ) := by
  obtain ⟨rank, hr, hle⟩ := ha.exists_rank hb
  exact obeys_eval_of_depth (fun a b hab _ => hr a b hab) hle σ

theorem Acyclic.obeys_eval (ha : net.Acyclic) (σ : CompId → Bool) : net.Obeys (net.eval σ) := by
  obtain ⟨depth, hr, hle⟩ := ha.exists_depth
  exact obeys_eval_of_depth hr hle σ

theorem Obeys.eq_eval (hv : net.Obeys v) (hb : net.Balanced) (ha : net.Acyclic)
    (hσ : ∀ c, net.contains c → net.inputsOf c = [] → v c = σ c) (c : CompId)
    (hc : net.contains c) : v c = net.eval σ c :=
  hv.unique (obeys_eval hb ha σ) hb ha (fun d hd hi => by rw [eval_of_source σ hi, hσ d hd hi]) c hc

end Valuations

/-! ## A small game -/

/-- A lamp that is switched on by pressing a button, which is legal while it is off. Once it is lit the
game is over. Some of the wiring is roundabout: the lamp feeds the OR at 5 twice, and the NOT at 8
undoes the one at 7. -/
def lamp : Network :=
  let lit := Term.atom "lit"
  let press := Term.atom "press"
  let prop (role : PropRole) (term : Term) : Proposition := { role, term }
  { roles := ["hand"]
    slots := #[
      some { kind := .proposition (prop .base lit), outputs := [5, 5, 7] },
      some { kind := .transition (some 0), inputs := [5] },
      some { kind := .proposition
              { prop .input press with player := some 0, move := some press, pairedLegal := some 3 }
             outputs := [6] },
      some { kind := .proposition
              { prop .legal press with player := some 0, move := some press, pairedInput := some 2 }
             inputs := [7], count := 1 },
      some { kind := .proposition (prop .terminal lit), inputs := [8] },
      some { kind := .or, inputs := [0, 0, 6], outputs := [1] },
      some { kind := .and, inputs := [2, 7], outputs := [5], count := 1, reqTrue := 2, reqFalse := 1 },
      some { kind := .not, inputs := [0], outputs := [3, 6, 8], sign := -1 },
      some { kind := .not, inputs := [7], outputs := [4, 9], count := 1, sign := -1 },
      some { kind := .proposition { prop .goal lit with player := some 0, goal := some 100 }
             inputs := [8] }]
    bases := [0], inputs := [2], transitions := [1], terminal := 4, initialState := [false]
    players := [{ name := "hand", inputs := [2], legals := [3], goals := [9] }] }

theorem lamp_balanced : lamp.Balanced := by decide

theorem lamp_acyclic : lamp.Acyclic := by
  have h : lamp.Ranked fun c => [0, 4, 0, 2, 3, 3, 2, 1, 2, 3].getD c 0 := by decide
  exact h.acyclic

end Network

end GameNet
