import GameNet.Proofs.Listing.Acyclic

/-!
What a listing means: its rows as boolean equations, and the game that they describe.

A row with inputs reads them by its sort. Bases, inputs and init are given from outside. All other rows
without inputs have a value of their own.
-/

namespace GameNet

open List

/-- What is without inputs and is not given a value reads its count, unless it is an AND, an OR or a
proposition. -/
def Op.ownValue (op : Op) (count : Int) : Bool :=
  match op with
  | .and => true
  | .or | .proposition => false
  | .not => !decide (0 < count)
  | .transition | .constant => decide (0 < count)

namespace Listing

/-- What is given from outside: whether the game is about to begin, the bases that are on and the inputs that
are chosen. -/
structure Moment where
  begins : Bool
  on : CompId → Bool
  does : CompId → Bool

def Moment.givenTo? (m : Moment) (c : CompId) : PropRole → Option Bool
  | .base => some (m.on c)
  | .input => some (m.does c)
  | .init => some m.begins
  | _ => none

def Moment.given? (m : Moment) (c : CompId) (r : RawComponent) : Option Bool :=
  match r.op, r.label with
  | .proposition, some (role, _) => m.givenTo? c role
  | _, _ => none

def valueWithin (l : Listing) (m : Moment) : (n : Nat) → CompId → Bool
  | 0, _ => false
  | n + 1, c =>
    match l.row? c with
    | none => false
    | some r => (m.given? c r).getD <| if r.inputs.isEmpty then r.op.ownValue r.count.toInt
        else r.op.read (l.inputsOf c) (l.valueWithin m n)

def value (l : Listing) (m : Moment) (c : CompId) : Bool := l.valueWithin m (l.components.size + 1) c

/-! ## The game -/

def ids (l : Listing) : List CompId := CompId.sortedSet (l.components.toList.map (·.id.toNat))

def proposition? (l : Listing) (c : CompId) : Option Proposition := (l.component? c).bind (·.proposition?)

def withRole (l : Listing) (role : PropRole) : List CompId :=
  l.ids.filter fun c => (l.proposition? c).any (·.role == role)

def moveOf? (l : Listing) (c : CompId) : Option (Nat × Term) :=
  (l.proposition? c).bind fun p => p.player.bind fun r => p.move.map (r, ·)

def inputFor? (l : Listing) (c : CompId) : Option CompId :=
  (l.moveOf? c).bind fun move => (l.withRole .input).find? fun i => l.moveOf? i == some move

def legalsOf (l : Listing) (role : Nat) : List CompId :=
  (l.withRole .legal).filter fun c =>
    (l.moveOf? c).map (·.1) == some role && (l.inputFor? c).isSome

def Moment.quiet (on : CompId → Bool) : Moment := ⟨false, on, fun _ => false⟩

def legalsIn (l : Listing) (on : CompId → Bool) (role : Nat) : List CompId :=
  (l.legalsOf role).filter (l.value (.quiet on))

def movesIn (l : Listing) (on : CompId → Bool) (role : Nat) : List Term :=
  (l.legalsIn on role).filterMap fun c => (l.moveOf? c).map (·.2)

def isTerminal (l : Listing) (on : CompId → Bool) : Bool := (l.withRole .terminal).any (l.value (.quiet on))

def goalsOf (l : Listing) (role : Nat) : List CompId :=
  (l.withRole .goal).filter fun g => (l.proposition? g).bind (·.player) == some role

def goalValue (l : Listing) (on : CompId → Bool) (role : Nat) : Option Nat :=
  ((l.goalsOf role).find? (l.value (.quiet on))).bind fun g => (l.proposition? g).bind (·.goal)

def chosen (l : Listing) (moves : List Term) (i : CompId) : Bool :=
  (l.moveOf? i).any fun move => moves[move.1]? == some move.2

def stateAfter (l : Listing) (m : Moment) (b : CompId) : Bool := (l.inputsOf b).any (l.value m)

def initialState (l : Listing) : CompId → Bool := l.stateAfter ⟨true, fun _ => false, fun _ => false⟩

def nextState (l : Listing) (on : CompId → Bool) (moves : List Term) : CompId → Bool :=
  l.stateAfter ⟨false, on, l.chosen moves⟩

def Joint (l : Listing) (on : CompId → Bool) (moves : List Term) : Prop :=
  List.Forall₂ (fun role move => move ∈ l.movesIn on role) (List.range l.roles.length) moves

def Plays (l : Listing) (on : CompId → Bool) : List (List Term) → Prop
  | [] => True
  | moves :: rest => l.Joint on moves ∧ l.Plays (l.nextState on moves) rest

def InitUndriven (l : Listing) : Prop := ∀ c ∈ l.withRole .init, l.inputsOf c = []

instance (l : Listing) : Decidable l.InitUndriven := inferInstanceAs (Decidable (∀ _ ∈ _, _))

/-! ## The equations hold -/

section Value

variable {l : Listing} {m : Moment} {c : CompId} {r : RawComponent}

theorem not_listsBase_of_given? (hr : l.row? c = some r) (hg : m.given? c r = none) : ¬ l.ListsBase c := by
  rintro ⟨r', text, hr', hop, hlabel⟩
  obtain rfl : r = r' := Option.some.inj (hr.symm.trans hr')
  rw [Moment.given?, hop, hlabel] at hg
  cases hg

theorem feeds_of_given? (hr : l.row? c = some r) (hg : m.given? c r = none) {a : CompId}
    (ha : a ∈ l.inputsOf c) : l.Feeds a c := ⟨ha, fun h => not_listsBase_of_given? hr hg h.2⟩

theorem valueWithin_stable {rank : CompId → Nat} (hrank : ∀ a b, l.Feeds a b → rank a < rank b) :
    ∀ (n n' : Nat) (c : CompId), rank c < n → rank c < n' → l.valueWithin m n c = l.valueWithin m n' c := by
  intro n
  induction n with
  | zero => exact fun n' c h => absurd h (Nat.not_lt_zero _)
  | succ n ih =>
    intro n' c hn hn'
    obtain ⟨n', rfl⟩ : ∃ k, n' = k + 1 := ⟨n' - 1, by omega⟩
    rw [valueWithin, valueWithin]
    cases hr : l.row? c with
    | none => rfl
    | some r =>
      dsimp only
      cases hg : m.given? c r with
      | some v => rfl
      | none =>
        have hread : r.op.read (l.inputsOf c) (l.valueWithin m n) =
            r.op.read (l.inputsOf c) (l.valueWithin m n') := by
          refine r.op.read_of_forall_eq fun a ha => ?_
          have hlt := hrank a c (feeds_of_given? hr hg ha)
          exact ih n' a (by omega) (by omega)
        rw [hread]

theorem exists_rank (hb : l.Balanced) (ha : l.Acyclic) :
    ∃ rank : CompId → Nat, (∀ a b, l.Feeds a b → rank a < rank b) ∧ ∀ c, rank c ≤ l.components.size := by
  have hsource : ∀ a b, l.Feeds a b → a ∈ (l.components.toList.map (·.id.toNat)).toFinset := by
    intro a b hab
    rw [mem_toFinset]
    refine mem_ids_of_mem_outputsOf (b := b) (count_pos_iff.mp ?_)
    rw [hb]
    exact count_pos_iff.mpr hab.1
  obtain ⟨rank, hrank, hle⟩ := Network.exists_rank_of_acyclic _ hsource ha
  refine ⟨rank, hrank, fun c => (hle c).trans ((toFinset_card_le _).trans ?_)⟩
  rw [length_map, Array.length_toList]

theorem value_eq (hb : l.Balanced) (ha : l.Acyclic) (hr : l.row? c = some r) :
    l.value m c = (m.given? c r).getD (if r.inputs.isEmpty then r.op.ownValue r.count.toInt
      else r.op.read (l.inputsOf c) (l.value m)) := by
  obtain ⟨rank, hrank, hle⟩ := exists_rank hb ha
  rw [value, valueWithin, hr]
  dsimp only
  cases hg : m.given? c r with
  | some v => rfl
  | none =>
    have hread : r.op.read (l.inputsOf c) (l.valueWithin m l.components.size) =
        r.op.read (l.inputsOf c) (l.value m) := by
      refine r.op.read_of_forall_eq fun a hac => ?_
      have hlt := hrank a c (feeds_of_given? hr hg hac)
      have hc := hle c
      exact valueWithin_stable hrank _ _ a (by omega) (by omega)
    rw [hread]

end Value

end Listing

end GameNet
