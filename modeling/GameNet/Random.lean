/-!
Random numbers. Play draws them from any generator; the one at hand is xoshiro256++, seeded by SplitMix64.
-/

namespace GameNet

class Dice (ρ : Type) where
  ofSeed : UInt64 → ρ
  /-- a number below the given one -/
  pick : ρ → Nat → Nat × ρ

def rotateLeft (x : UInt64) (k : UInt64) : UInt64 := (x <<< k) ||| (x >>> (64 - k))

def splitMix (seed : UInt64) : UInt64 × UInt64 :=
  let seed := seed + 0x9e3779b97f4a7c15
  let z := (seed ^^^ (seed >>> 30)) * 0xbf58476d1ce4e5b9
  let z := (z ^^^ (z >>> 27)) * 0x94d049bb133111eb
  (z ^^^ (z >>> 31), seed)

structure Generator where
  s0 : UInt64
  s1 : UInt64
  s2 : UInt64
  s3 : UInt64
  deriving DecidableEq, Repr, Inhabited

namespace Generator

def ofSeed (seed : UInt64) : Generator :=
  let (s0, seed) := splitMix seed
  let (s1, seed) := splitMix seed
  let (s2, seed) := splitMix seed
  let (s3, _) := splitMix seed
  ⟨s0, s1, s2, s3⟩

def next (g : Generator) : UInt64 × Generator :=
  let result := rotateLeft (g.s0 + g.s3) 23 + g.s0
  let s2 := g.s2 ^^^ g.s0
  let s3 := g.s3 ^^^ g.s1
  (result, ⟨g.s0 ^^^ s3, g.s1 ^^^ s2, s2 ^^^ (g.s1 <<< 17), rotateLeft s3 45⟩)

def next32 (g : Generator) : Nat × Generator :=
  let (r, g) := g.next
  ((r >>> 32).toNat, g)

def next64 (g : Generator) : Nat × Generator :=
  let (r, g) := g.next
  (r.toNat, g)

/-- A number below `n`, of draws below `size`. The first draw is scaled to the range; where its remainder
leaves the result open, a second draw settles the carry. -/
def scaled (size : Nat) (draw : Generator → Nat × Generator) (g : Generator) (n : Nat) : Nat × Generator :=
  let (x, g) := draw g
  let high := x * n / size
  let low := x * n % size
  if low ≤ size - n then (high, g)
  else
    let (y, g) := draw g
    (if low + y * n / size < size then high else high + 1, g)

def pick (g : Generator) (n : Nat) : Nat × Generator :=
  if n ≤ UInt32.size then scaled UInt32.size next32 g n else scaled UInt64.size next64 g n

instance : Dice Generator := ⟨ofSeed, pick⟩

end Generator

end GameNet
