/-!
Decimal text of fractions and durations.
-/

namespace GameNet.Text

/-- The quotient `num / den` rounded to the nearest integer, an exact half going to the even
neighbour. -/
def roundDiv (num den : Nat) : Nat :=
  let q := num / den
  let r := num % den
  if den < 2 * r ∨ (2 * r = den ∧ q % 2 = 1) then q + 1 else q

def padded (width n : Nat) : String :=
  let text := toString n
  String.ofList (List.replicate (width - text.length) '0') ++ text

def binaryParts (x : Float) : Nat × Int :=
  let bits := x.toBits.toNat
  let exponent := bits / Nat.pow 2 52 % Nat.pow 2 11
  let fraction := bits % Nat.pow 2 52
  if exponent = 0 then (fraction, -1074) else (fraction + Nat.pow 2 52, Int.ofNat exponent - 1075)

/-- A finite number that is not negative, rounded to six decimals. -/
def sixDecimals (x : Float) : String :=
  let (mantissa, power) := binaryParts x
  let scaled := roundDiv (mantissa * 1000000 * Nat.pow 2 power.toNat) (Nat.pow 2 (-power).toNat)
  toString (scaled / 1000000) ++ "." ++ padded 6 (scaled % 1000000)

def fraction (places units : Nat) : String :=
  let whole := Nat.pow 10 places
  let digits := (padded places (units % whole)).toList.reverse.dropWhile (· == '0')
  toString (units / whole) ++
    (if digits.isEmpty then "" else "." ++ String.ofList digits.reverse)

/-- A duration in seconds if it has a whole one, and else in milliseconds; an empty one is `0ns`. -/
def duration (milliseconds : Nat) : String :=
  if milliseconds = 0 then "0ns"
  else if milliseconds < 1000 then toString milliseconds ++ "ms"
  else fraction 3 milliseconds ++ "s"

end GameNet.Text
