/-! Numbers of 53 binary digits, held as mantissa and exponent and rounded exactly from decimals. -/
namespace PathQuery.Decimal

inductive Double where
  | finite (negative : Bool) (mantissa : Nat) (exponent : Int)
  | infinite (negative : Bool)
  deriving DecidableEq, Repr

def Double.isZero : Double → Bool
  | .finite _ m _ => m == 0
  | .infinite _ => false

def Double.truncate : Double → Option Int
  | .finite negative m e =>
      let size := if 0 ≤ e then m * Nat.pow 2 e.toNat else m / Nat.pow 2 (-e).toNat
      some (if negative then -(size : Int) else size)
  | .infinite _ => none

def Double.isIntegral : Double → Bool
  | .finite _ m e => 0 ≤ e || m % Nat.pow 2 (-e).toNat == 0
  | .infinite _ => false

def roundHalfEven (num den : Nat) : Nat :=
  let low := num / den
  let twice := 2 * (num % den)
  if twice < den then low
  else if den < twice then low + 1
  else low + low % 2

def inUnits (num den : Nat) (e : Int) : Nat × Nat :=
  if 0 ≤ e then (num,den * Nat.pow 2 e.toNat) else (num * Nat.pow 2 (-e).toNat,den)

def decimalLength (n : Nat) : Nat := (Nat.toDigits 10 n).length

def leastMantissa : Nat := 4503599627370496

def beyondMantissa : Nat := 9007199254740992

def Double.ofDecimal (negative : Bool) (digits : Nat) (exponent : Int) : Double :=
  let size := (decimalLength digits : Int) + exponent
  if digits == 0 || size < -330 then .finite negative 0 (-1074)
  else if 310 < size then .infinite negative
  else
    let num := digits * Nat.pow 10 exponent.toNat
    let den := Nat.pow 10 (-exponent).toNat
    let guess := max (-1074) ((num.log2 : Int) - den.log2 - 53)
    let start := inUnits num den guess
    let e := if beyondMantissa ≤ start.1 / start.2 then guess + 1 else guess
    let scaled := inUnits num den e
    let m := roundHalfEven scaled.1 scaled.2
    let carried := if m == beyondMantissa then (leastMantissa,e + 1) else (m,e)
    if 971 < carried.2 then .infinite negative else .finite negative carried.1 carried.2

end PathQuery.Decimal
