/-!
Numbers of JSON texts, kept the way they are written.
-/

namespace GameNet.Json

/-- A number as it is written: a sign, the digits as a 64-bit mantissa, and a power of ten. -/
structure Number where
  negative : Bool := false
  mantissa : UInt64
  exponent : Int := 0
  deriving DecidableEq, Repr

namespace Number

def ofNat (n : Nat) : Number := { mantissa := n.toUInt64 }

def ofInt (i : Int) : Number := { negative := i < 0, mantissa := i.natAbs.toUInt64 }

def shift (mantissa : UInt64) (digit : Nat) : Option UInt64 :=
  let wide := mantissa.toNat * 10 + digit
  if wide < UInt64.size then some wide.toUInt64 else none

/-- A digit of the integral part that does not fit counts as a power of ten. -/
def addDigit (n : Number) (digit : Nat) : Number :=
  match shift n.mantissa digit with
  | some m => { n with mantissa := m }
  | none => { n with exponent := n.exponent + 1 }

def addDecimal (n : Number) (digit : Nat) : Number :=
  match shift n.mantissa digit with
  | some m => { n with mantissa := m, exponent := n.exponent - 1 }
  | none => n

/-- Powers of ten are signed 16-bit words; one outside their range becomes the nearer end of it. -/
def nearestPower (e : Int) : Int :=
  if e < Int16.minValue.toInt then Int16.minValue.toInt
  else if Int16.maxValue.toInt < e then Int16.maxValue.toInt
  else e

/-- The number times a written power of ten. The written power is brought into range before it is
applied, and the result once more. -/
def scale (n : Number) (negative : Bool) (power : Nat) : Number :=
  let power := nearestPower power
  { n with exponent := nearestPower (n.exponent + (if negative then -power else power)) }

/-- The number as an unsigned word: it must be written without a power of ten and without a
sign. -/
def toUInt32? (n : Number) : Option UInt32 :=
  if n.exponent = 0 ∧ !n.negative ∧ n.mantissa.toNat < UInt32.size then
    some n.mantissa.toUInt32
  else none

/-- The mantissa is read as a two's complement word before the sign is applied. -/
def signedValue (n : Number) : Int :=
  if n.negative then -n.mantissa.toInt64.toInt else n.mantissa.toInt64.toInt

def toInt32? (n : Number) : Option Int32 :=
  if n.exponent = 0 ∧ Int32.minValue.toInt ≤ n.signedValue ∧
      n.signedValue ≤ Int32.maxValue.toInt then
    some (Int32.ofInt n.signedValue)
  else none

def zeros (n : Nat) : String := String.ofList (List.replicate n '0')

def powerText (e : Int) : String :=
  if e = 0 then "" else if 0 < e then "e+" ++ toString e else "e" ++ toString e

def scientific (digits : List Char) (exponent : Int) : String :=
  let tail := digits.drop 1
  String.ofList (digits.take 1) ++ (if tail.isEmpty then "" else "." ++ String.ofList tail) ++
    powerText (exponent + tail.length)

/-- The number in decimal. Up to 17 decimals and up to 20 digits are written out; zero has neither
decimals nor a power of ten. -/
def render (n : Number) : String :=
  let digits := (toString n.mantissa.toNat).toList
  let sign := if n.negative then "-" else ""
  let body :=
    if n.mantissa = 0 ∨ n.exponent = 0 then String.ofList digits
    else if n.exponent > 0 then
      let power := n.exponent.toNat
      if digits.length + power ≤ 20 then String.ofList digits ++ zeros power
      else scientific digits n.exponent
    else
      let decimals := (-n.exponent).toNat
      if decimals < 18 then
        let wide := List.replicate (decimals + 1 - digits.length) '0' ++ digits
        let whole := wide.length - decimals
        String.ofList (wide.take whole) ++ "." ++ String.ofList (wide.drop whole)
      else scientific digits n.exponent
  sign ++ body

end Number

end GameNet.Json
