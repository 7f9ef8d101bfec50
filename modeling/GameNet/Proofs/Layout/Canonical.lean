import GameNet.Proofs.Layout.Sorting
import Mathlib.Data.Prod.Lex
import Mathlib.Data.String.Basic

/-!
The order of bases and legals is canonical.

Sorting moves whole rows: a base with its transition and its initial value, a legal with its input.
-/

namespace GameNet

open List

/-! ## Sorting forgets the order -/

theorem sortBy_eq_of_perm {α : Type} {le : α → α → Bool} (trans : ∀ a b c, le a b → le b c → le a c)
    (total : ∀ a b, le a b ∨ le b a) {as bs : List α}
    (antisymm : ∀ a ∈ as, ∀ b ∈ as, le a b → le b a → a = b) (h : as.Perm bs) :
    sortBy le as = sortBy le bs := by
  refine List.Perm.eq_of_pairwise (fun a b ha hb hab hba => ?_) (pairwise_sortBy le trans total as)
    (pairwise_sortBy le trans total bs) (((sortBy_perm le as).trans h).trans (sortBy_perm le bs).symm)
  exact antisymm a ((mem_sortBy le).mp ha) b (h.mem_iff.mpr ((mem_sortBy le).mp hb)) hab hba

namespace Network

/-! ## Keys -/

theorem TermKey.le_iff {a b : TermKey} : TermKey.le a b ↔ toLex a ≤ toLex b := by
  simp only [TermKey.le, Bool.or_eq_true, Bool.and_eq_true, decide_eq_true_eq, beq_iff_eq,
    Bool.not_eq_true', decide_eq_false_iff_not, Prod.Lex.toLex_le_toLex, not_lt]

theorem TermKey.le_trans (a b c : TermKey) (hab : TermKey.le a b) (hbc : TermKey.le b c) :
    TermKey.le a c := le_iff.mpr ((le_iff.mp hab).trans (le_iff.mp hbc))

theorem TermKey.le_total (a b : TermKey) : TermKey.le a b ∨ TermKey.le b a := by
  rw [le_iff, le_iff]
  exact LinearOrder.le_total _ _

theorem TermKey.le_antisymm {a b : TermKey} (hab : TermKey.le a b) (hba : TermKey.le b a) : a = b :=
  toLex.injective ((le_iff.mp hab).antisymm (le_iff.mp hba))

section Keys

variable {net : Network} {part : Nat} {cs cs' : List CompId}

theorem inTermOrder_eq_of_perm (hd : (cs.map net.printed).Nodup) (h : cs.Perm cs') :
    net.inTermOrder part cs = net.inTermOrder part cs' := by
  rw [inTermOrder, inTermOrder, sortBy_eq_of_perm (fun a b c => TermKey.le_trans a.1 b.1 c.1)
    (fun a b => TermKey.le_total a.1 b.1) (fun a ha b hb hab hba => ?_) (h.map _)]
  obtain ⟨c, hc, rfl⟩ := mem_map.mp ha
  obtain ⟨c', hc', rfl⟩ := mem_map.mp hb
  have hkey : net.keyOf part c = net.keyOf part c' := TermKey.le_antisymm hab hba
  rw [inj_on_of_nodup_map hd hc hc' (congrArg Prod.snd hkey)]

end Keys

/-! ## Rows -/

def rows (net : Network) : List (CompId × CompId × Bool) :=
  net.bases.zip (net.transitions.zip net.initialState)

def entryOf (net : Network) (b : CompId) : CompId × Bool :=
  (net.transitions[net.bases.idxOf b]?.getD 0, net.initialState[net.bases.idxOf b]?.getD false)

def rowsInOrder (net : Network) : Network :=
  let bases := net.inTermOrder 1 net.bases
  { net with
    bases, transitions := bases.map fun b => (net.entryOf b).1
    initialState := bases.map fun b => (net.entryOf b).2 }

/-- The lists of a network fit together: each base has a transition and an initial value, and each legal
an input of its own. -/
structure Collated (net : Network) : Prop where
  bases : net.bases.Nodup
  transitions : net.transitions.length = net.bases.length
  initialState : net.initialState.length = net.bases.length
  inputs : net.inputs.Nodup
  paired : ∀ l ∈ net.legals, ∃ i ∈ net.inputs, net.pairedInput? l = some i
  own : (net.legals.map net.pairedInput?).Nodup

/-- The networks differ at most in the order of the rows, of each player's legals and of the inputs. Those
of a player may be any, since they follow the legals. -/
structure Shuffles (net net' : Network) : Prop where
  same : net' = { net with
    bases := net'.bases, transitions := net'.transitions, initialState := net'.initialState
    players := net'.players, inputs := net'.inputs }
  transitions : net'.transitions.length = net'.bases.length
  initialState : net'.initialState.length = net'.bases.length
  rows : net'.rows.Perm net.rows
  players : List.Forall₂ (fun p p' => p'.name = p.name ∧ p'.goals = p.goals ∧ p'.legals.Perm p.legals)
    net.players net'.players
  inputs : net'.inputs.Perm net.inputs

section Rows

variable {net net' r : Network}

theorem rows_eq_map (hd : net.bases.Nodup) (ht : net.transitions.length = net.bases.length)
    (hi : net.initialState.length = net.bases.length) :
    net.rows = net.bases.map fun b => (b, net.entryOf b) := by
  refine ext_getElem (by simp [rows, ht, hi]) fun j hj hj' => ?_
  have hb : j < net.bases.length := by simpa using hj'
  simp [rows, entryOf, hd.idxOf_getElem, ht, hi, hb]

theorem reorderBases_yields (ht : net.transitions.length = net.bases.length)
    (hlive : net.bases.length ≤ 1 ∨ ∀ b ∈ net.bases, net.contains b) :
    net.reorderBases = .ok net.rowsInOrder := by
  have hmem : ∀ b ∈ net.inTermOrder 1 net.bases, b ∈ net.bases := fun b =>
    (net.inTermOrder_perm 1 net.bases).mem_iff.mp
  refine Checked.Yields.eq_ok (.bind_ok (sortByTerm_yields hlive)
    (.bind_ok (Checked.mapM_yields (g := net.bases.idxOf) _ fun b hb => ?_)
    (.bind_ok (Checked.mapM_yields (g := fun i => net.transitions[i]?.getD 0) _ fun i hi => ?_)
      (.pure ?_))))
  · rw [findIdx?_eq_some_of_exists]
    · rfl
    · exact ⟨b, hmem b hb, beq_self_eq_true b⟩
  · obtain ⟨b, hb, rfl⟩ := mem_map.mp hi
    rw [getElem?_eq_getElem (ht ▸ idxOf_lt_length_of_mem (hmem b hb))]
    rfl
  · simp only [map_map]
    rfl

theorem live_of_reorderBases (hr : net.reorderBases = .ok r) :
    net.bases.length ≤ 1 ∨ ∀ b ∈ net.bases, net.contains b := by
  obtain ⟨bases, hs, -⟩ := exists_of_bind_eq_ok hr
  exact live_of_sortByTerm hs

theorem Collated.rowsInOrder (h : net.Collated) : Shuffles net net.rowsInOrder := by
  refine ⟨rfl, length_map _, length_map _, ?_, forall₂_same.mpr fun p _ => ⟨rfl, rfl, .refl _⟩, .refl _⟩
  have hzip : ∀ bs : List CompId, bs.zip ((bs.map fun b => (net.entryOf b).1).zip
      (bs.map fun b => (net.entryOf b).2)) = bs.map fun b => (b, net.entryOf b) := fun bs => by
    rw [zip_map', ← map_prod_left_eq_zip]
  rw [rows_eq_map h.bases h.transitions h.initialState]
  exact (List.Perm.of_eq (hzip _)).trans ((net.inTermOrder_perm 1 net.bases).map _)

theorem map_fst_rows (ht : net.transitions.length = net.bases.length)
    (hi : net.initialState.length = net.bases.length) : net.rows.map (·.1) = net.bases :=
  map_fst_zip (by simp [ht, hi])

section

variable (h : Shuffles net net')
include h

theorem Shuffles.bases (ht : net.Collated) : net'.bases.Perm net.bases := by
  rw [← map_fst_rows h.transitions h.initialState, ← map_fst_rows ht.transitions ht.initialState]
  exact h.rows.map _

theorem Shuffles.get? (c : CompId) : net'.get? c = net.get? c := by
  rw [h.same]
  rfl

theorem Shuffles.inTermOrder (part : Nat) (cs : List CompId) :
    net'.inTermOrder part cs = net.inTermOrder part cs := by
  have hkey : net'.keyOf part = net.keyOf part := funext fun c => by
    rw [keyOf, keyOf, printed, printed, termText?, termText?, h.get?]
  rw [Network.inTermOrder, Network.inTermOrder, hkey]

theorem Shuffles.entryOf (ht : net.Collated) {b : CompId} (hb : b ∈ net.bases) :
    net'.entryOf b = net.entryOf b := by
  have hd' : net'.bases.Nodup := (h.bases ht).nodup_iff.mpr ht.bases
  have hmem : (b, net'.entryOf b) ∈ net.rows := by
    rw [← h.rows.mem_iff, rows_eq_map hd' h.transitions h.initialState]
    exact mem_map_of_mem ((h.bases ht).mem_iff.mpr hb)
  rw [rows_eq_map ht.bases ht.transitions ht.initialState] at hmem
  obtain ⟨b', -, heq⟩ := mem_map.mp hmem
  obtain ⟨rfl, hentry⟩ := Prod.mk.inj heq
  exact hentry.symm

theorem Shuffles.live (ht : net.Collated)
    (hlive : net.bases.length ≤ 1 ∨ ∀ b ∈ net.bases, net.contains b) :
    net'.bases.length ≤ 1 ∨ ∀ b ∈ net'.bases, net'.contains b := by
  have hb := h.bases ht
  rw [hb.length_eq]
  refine hlive.imp_right fun hlive b hmem => ?_
  rw [contains, h.get?]
  exact hlive b (hb.mem_iff.mp hmem)

theorem Shuffles.rowsInOrder (ht : net.Collated)
    (hd : (net.bases.map net.printed).Nodup) : net'.rowsInOrder = { net' with
      bases := net.rowsInOrder.bases, transitions := net.rowsInOrder.transitions
      initialState := net.rowsInOrder.initialState } := by
  have horder : net'.inTermOrder 1 net'.bases = net.inTermOrder 1 net.bases := by
    rw [h.inTermOrder, inTermOrder_eq_of_perm hd (h.bases ht).symm]
  have hentry : ∀ b ∈ net.inTermOrder 1 net.bases, net'.entryOf b = net.entryOf b := fun b hmem =>
    h.entryOf ht ((net.inTermOrder_perm 1 net.bases).mem_iff.mp hmem)
  unfold Network.rowsInOrder
  dsimp only
  rw [horder, map_congr_left fun b hmem => congrArg Prod.fst (hentry b hmem),
    map_congr_left fun b hmem => congrArg Prod.snd (hentry b hmem)]

end

end Rows

/-! ## Moves -/

def inMoveOrder (net : Network) (p : Player) : Player :=
  let legals := net.inTermOrder 2 p.legals
  { p with legals, inputs := legals.map fun l => (net.pairedInput? l).getD 0 }

def placedInputs (net : Network) : List CompId := net.players.flatMap fun p => (net.inMoveOrder p).inputs

def movesInOrder (net : Network) : Network :=
  { net with
    players := net.players.map net.inMoveOrder
    inputs := net.placedInputs ++ net.inputs.filter fun i => !net.placedInputs.contains i }

section Moves

variable {net net' r : Network}

theorem reorderLegals_yields (h : ∀ l ∈ net.legals, ∃ i, net.pairedInput? l = some i) :
    net.reorderLegals = .ok net.movesInOrder := by
  refine Checked.Yields.eq_ok (.bind_ok (Checked.mapM_yields (g := net.inMoveOrder) net.players
    fun p hp => ?_) (.pure ?_))
  · have hpaired : ∀ l ∈ p.legals, net.pairedInput? l = some ((net.pairedInput? l).getD 0) := by
      intro l hl
      obtain ⟨i, hi⟩ := h l (mem_flatMap.mpr ⟨p, hp, hl⟩)
      rw [hi, Option.getD_some]
    have hlive : ∀ l ∈ p.legals, net.contains l := fun l hl => by
      obtain ⟨k, hk, -⟩ := Option.bind_eq_some_iff.mp (hpaired l hl)
      exact contains_of_get? hk
    have hinputs := Checked.mapM_yields (net.inTermOrder 2 p.legals) fun l hl =>
      pairedInputOf_eq_ok_iff.mpr (hpaired l ((net.inTermOrder_perm 2 p.legals).mem_iff.mp hl))
    exact Checked.Yields.eq_ok (.bind_ok (sortByTerm_yields (.inr hlive)) (.bind_ok hinputs (.pure rfl)))
  · rw [movesInOrder, placedInputs, flatMap_map]

theorem aligned_movesInOrder (h : ∀ l ∈ net.legals, ∃ i, net.pairedInput? l = some i) :
    net.movesInOrder.Aligned := by
  intro p' hp'
  obtain ⟨p, hp, rfl⟩ := mem_map.mp hp'
  refine forall₂_map_right_iff.mpr (forall₂_same.mpr fun l hl => ?_)
  have hmem := (net.inTermOrder_perm 2 p.legals).mem_iff.mp hl
  obtain ⟨i, hi⟩ := h l (mem_flatMap.mpr ⟨p, hp, hmem⟩)
  have hget : net.movesInOrder.pairedInput? l = net.pairedInput? l := rfl
  rw [hget, hi, Option.getD_some]

theorem placedInputs_perm (net : Network) :
    net.placedInputs.Perm (net.legals.map fun l => (net.pairedInput? l).getD 0) := by
  rw [placedInputs, legals, map_flatMap]
  exact List.Perm.flatMap_left _ fun p _ => (net.inTermOrder_perm 2 p.legals).map _

theorem Collated.placedInputs (h : net.Collated) :
    net.placedInputs.Nodup ∧ net.placedInputs ⊆ net.inputs := by
  refine ⟨net.placedInputs_perm.nodup_iff.mpr ?_, fun i hi => ?_⟩
  · have hmap : net.legals.map (fun l => (net.pairedInput? l).getD 0) =
        (net.legals.map net.pairedInput?).map (·.getD 0) := by rw [map_map]; rfl
    rw [hmap]
    refine List.Nodup.map_on (fun x hx y hy hxy => ?_) h.own
    obtain ⟨l, hl, rfl⟩ := mem_map.mp hx
    obtain ⟨l', hl', rfl⟩ := mem_map.mp hy
    obtain ⟨i, -, hi⟩ := h.paired l hl
    obtain ⟨i', -, hi'⟩ := h.paired l' hl'
    rw [hi, hi'] at hxy ⊢
    exact congrArg some hxy
  · obtain ⟨l, hl, rfl⟩ := mem_map.mp (net.placedInputs_perm.mem_iff.mp hi)
    obtain ⟨i, hmem, hi⟩ := h.paired l hl
    rwa [hi]

theorem append_filter_perm {placed inputs : List CompId} (hp : placed.Nodup) (hi : inputs.Nodup)
    (hsub : placed ⊆ inputs) : (placed ++ inputs.filter fun i => !placed.contains i).Perm inputs := by
  refine (perm_ext_iff_of_nodup ?_ hi).mpr fun i => ?_
  · refine nodup_append.mpr ⟨hp, hi.filter _, fun i hmem j hj hij => ?_⟩
    subst hij
    simp [hmem] at hj
  simp only [mem_append, mem_filter, contains_eq_mem, Bool.not_eq_true', decide_eq_false_iff_not]
  by_cases hmem : i ∈ placed
  · simp [hmem, hsub hmem]
  · simp [hmem]

theorem Collated.movesInOrder (h : net.Collated) : Shuffles net net.movesInOrder := by
  refine ⟨rfl, h.transitions, h.initialState, .refl _, ?_, ?_⟩
  · refine forall₂_map_right_iff.mpr (forall₂_same.mpr fun p _ => ⟨rfl, rfl, ?_⟩)
    exact net.inTermOrder_perm 2 p.legals
  · exact append_filter_perm h.placedInputs.1 h.inputs h.placedInputs.2

theorem Shuffles.pairedInput? (h : Shuffles net net') : net'.pairedInput? = net.pairedInput? :=
  funext fun l => by rw [Network.pairedInput?, Network.pairedInput?, h.get?]

theorem Shuffles.paired (h : Shuffles net net')
    (hpaired : ∀ l ∈ net.legals, ∃ i, net.pairedInput? l = some i) :
    ∀ l ∈ net'.legals, ∃ i, net'.pairedInput? l = some i := by
  intro l hl
  obtain ⟨p', hp', hl⟩ := mem_flatMap.mp hl
  obtain ⟨p, hp, -, -, hlegals⟩ := exists_of_mem_right h.players hp'
  rw [h.pairedInput?]
  exact hpaired l (mem_flatMap.mpr ⟨p, hp, hlegals.mem_iff.mp hl⟩)

theorem Shuffles.movesInOrder (h : Shuffles net net')
    (hd : ∀ p ∈ net.players, (p.legals.map net.printed).Nodup) :
    net'.movesInOrder.players = net.movesInOrder.players := by
  have hsame : List.Forall₂ (fun p p' => net.inMoveOrder p = net'.inMoveOrder p')
      net.players net'.players := by
    refine ((forall₂_and_left _ _).mpr ⟨hd, h.players⟩).imp fun p p' hp => ?_
    obtain ⟨hprinted, hname, hgoals, hlegals⟩ := hp
    unfold inMoveOrder
    dsimp only
    rw [h.inTermOrder, inTermOrder_eq_of_perm hprinted hlegals.symm, h.pairedInput?, hname, hgoals]
  exact (forall₂_eq_eq_eq ▸ forall₂_map_left_iff.mpr
    (forall₂_map_right_iff.mpr hsame) : net.movesInOrder.players = net'.movesInOrder.players).symm

end Moves

/-- Rows and pairs are moved as a whole, and where the printed terms differ it does not show in which
order they have been. -/
theorem reorder_canonical {net : Network} (h : net.Collated) :
    (net.reorderBases.Ensures fun r =>
      Shuffles net r ∧ r.players = net.players ∧ r.inputs = net.inputs) ∧
    ((∃ r, net.reorderBases = .ok r) ↔
      net.bases.length ≤ 1 ∨ ∀ b ∈ net.bases, net.contains b = true) ∧
    (net.reorderLegals.Yields fun r => Shuffles net r ∧ r.Aligned ∧ r.bases = net.bases ∧
      r.transitions = net.transitions ∧ r.initialState = net.initialState) ∧
    ∀ net', Shuffles net net' → (net.bases.map net.printed).Nodup →
      (∀ p ∈ net.players, (p.legals.map net.printed).Nodup) →
      ∀ r, net.reorderBases >>= reorderLegals = .ok r →
        ∃ r', net'.reorderBases >>= reorderLegals = .ok r' ∧ r'.bases = r.bases ∧
          r'.transitions = r.transitions ∧ r'.initialState = r.initialState ∧
          r'.players = r.players := by
  have hpaired : ∀ l ∈ net.legals, ∃ i, net.pairedInput? l = some i := fun l hl => by
    obtain ⟨i, -, hi⟩ := h.paired l hl
    exact ⟨i, hi⟩
  have hrows : ∀ r, net.reorderBases = .ok r → r = net.rowsInOrder := fun r hr =>
    Except.ok.inj (hr.symm.trans (reorderBases_yields h.transitions (live_of_reorderBases hr)))
  refine ⟨fun r hr => ?_, ⟨fun hr => hr.elim fun _ => live_of_reorderBases,
    fun hlive => ⟨_, reorderBases_yields h.transitions hlive⟩⟩,
    ⟨_, reorderLegals_yields hpaired, h.movesInOrder, aligned_movesInOrder hpaired, rfl, rfl, rfl⟩, ?_⟩
  · obtain rfl := hrows r hr
    exact ⟨h.rowsInOrder, rfl, rfl⟩
  · intro net' hshuffle hbases hlegals r hr
    obtain ⟨r₁, hr₁, hr₂⟩ := exists_of_bind_eq_ok hr
    have hlive := hshuffle.live h (live_of_reorderBases hr₁)
    obtain rfl := hrows r₁ hr₁
    -- the second step sees the components and the players, which the first has left alone
    obtain rfl : r = net.rowsInOrder.movesInOrder :=
      Except.ok.inj (hr₂.symm.trans (reorderLegals_yields hpaired))
    refine ⟨net'.rowsInOrder.movesInOrder, ?_, ?_⟩
    · rw [reorderBases_yields hshuffle.transitions hlive]
      exact reorderLegals_yields (hshuffle.paired hpaired)
    · have heq := hshuffle.rowsInOrder h hbases
      exact ⟨congrArg (·.bases) heq, congrArg (·.transitions) heq, congrArg (·.initialState) heq,
        hshuffle.movesInOrder hlegals⟩

def cells : Network :=
  let fact (head : String) (args : List String) : Term := .group ((head :: args).map .atom)
  let prop (role : PropRole) (term : Term) : Proposition := { role, term }
  let base (arg : Term) : Component := { kind := .proposition (prop .base (.group [.atom "true", arg])) }
  let input (move : String) : Component :=
    { kind := .proposition (prop .input (fact "does" ["hand", move])) }
  let legal (move : String) (i : CompId) : Component :=
    let p := prop .legal (fact "legal" ["hand", move])
    { kind := .proposition { p with pairedInput := some i } }
  let components := [base (fact "cell" ["1"]), base (.atom "done"), base (fact "cell" ["2"]),
    input "wait", input "left", input "right", legal "left" 4, legal "right" 5]
  { slots := (components.map some).toArray
    bases := [0, 1, 2], transitions := [10, 11, 12], initialState := [true, false, false]
    inputs := [3, 4, 5]
    players := [{ name := "hand", legals := [6, 7], inputs := [4, 5] }] }

def cellsShuffled : Network :=
  { cells with
    bases := [1, 2, 0], transitions := [11, 12, 10], initialState := [false, false, true]
    players := [{ name := "hand", legals := [7, 6], inputs := [5, 4] }] }

theorem reorder_canonical_cells : cells.Collated ∧ Shuffles cells cellsShuffled ∧
    (cells.bases.map cells.printed).Nodup ∧ ∃ r r', cells.reorderBases >>= reorderLegals = .ok r ∧
      cellsShuffled.reorderBases >>= reorderLegals = .ok r' ∧ r.bases = [1, 2, 0] ∧
      r'.bases = r.bases ∧ r'.transitions = r.transitions ∧ r'.initialState = r.initialState ∧
      r'.players = r.players := by
  have hcollated : cells.Collated :=
    ⟨by decide, by decide, by decide, by decide, by decide, by decide⟩
  have hshuffle : Shuffles cells cellsShuffled := by
    refine ⟨rfl, rfl, rfl, by decide, .cons ⟨rfl, rfl, ?_⟩ .nil, .refl _⟩
    exact .swap _ _ _
  have hbases : (cells.bases.map cells.printed).Nodup := by decide +kernel
  have hok : (cells.reorderBases >>= reorderLegals).map (·.bases) = .ok [1, 2, 0] := by decide +kernel
  obtain ⟨-, -, -, h⟩ := reorder_canonical hcollated
  cases hr : cells.reorderBases >>= reorderLegals with
  | error e =>
    rw [hr] at hok
    cases hok
  | ok r =>
    rw [hr] at hok
    obtain ⟨r', hr', hsame⟩ := h cellsShuffled hshuffle hbases (by decide +kernel) r hr
    exact ⟨hcollated, hshuffle, hbases, r, r', rfl, hr', Except.ok.inj hok, hsame⟩

end Network

end GameNet
