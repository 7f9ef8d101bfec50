import GameNet.Error

/-!
Loops that may run for long.

A loop is given a bound on the binary logarithm of its number of turns, so that a bound as large as
a power of two of the data costs nothing.
-/

namespace GameNet

inductive Turn (σ α : Type) where
  | next (s : σ)
  | done (a : α)

namespace Loop

variable {σ α : Type} {m : Type → Type} [Monad m] [MonadExceptOf Fault m]

def turns (turn : σ → m (Turn σ α)) : (k : Nat) → σ → m (Turn σ α)
  | 0, s => turn s
  | k + 1, s => do
    match ← turns turn k s with
    | .next s => turns turn k s
    | .done a => return .done a

/-- Rounds of `2 ^ k` turns, then `2 ^ (k + 1)` turns, and so on, for `rounds` rounds. -/
def growing (turn : σ → m (Turn σ α)) : (rounds k : Nat) → σ → m α
  | 0, _, _ => throw (.crash .exhausted)
  | rounds + 1, k, s => do
    match ← turns turn k s with
    | .next s => growing turn rounds (k + 1) s
    | .done a => return a

/-- Loops that nothing is known of take up to `2 ^ patience` turns, which no computation outlives. -/
def patience : Nat := 64

/-- Takes turns until one ends the loop, at most `2 ^ (bound + patience)` of them. -/
def run (bound : Nat) (turn : σ → m (Turn σ α)) (s : σ) : m α :=
  growing turn (bound + patience + 1) 0 s

/-! ## How loops end -/

def allowance : (k : Nat) → Nat
  | 0 => 1
  | k + 1 => allowance k + allowance k

theorem allowance_pos (k : Nat) : 0 < allowance k := by
  induction k with
  | zero => exact Nat.one_pos
  | succ k ih => rw [allowance]; omega

theorem lt_allowance (k : Nat) : k < allowance k := by
  induction k with
  | zero => exact Nat.one_pos
  | succ k ih => rw [allowance]; omega

theorem allowance_le_add (k j : Nat) : allowance k ≤ allowance (k + j) := by
  induction j with
  | zero => exact Nat.le_refl _
  | succ j ih => rw [← Nat.add_assoc, allowance]; omega

end Loop

end GameNet
