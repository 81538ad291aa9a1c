import PathQuery.Decimal.Double

/-! The shortest decimal that reads back as a given double, and its layout. -/
namespace PathQuery.Decimal

/-- A double as a point between its neighbours: all decimals strictly between `low` and `high`, in
units of a quarter of the last binary place, round to it, and so do the ends if the mantissa is even. -/
structure Rounding where
  low : Nat
  point : Nat
  high : Nat
  closed : Bool
  exponent : Int

def rounding (m : Nat) (e : Int) : Rounding :=
  { low := 4 * m - (if m == leastMantissa && decide (-1074 < e) then 1 else 2)
    point := 4 * m
    high := 4 * m + 2
    closed := m % 2 == 0
    exponent := e - 2 }

def Rounding.unit (r : Rounding) (k : Int) : Nat × Nat :=
  (Nat.pow 2 r.exponent.toNat * Nat.pow 10 (-k).toNat,Nat.pow 2 (-r.exponent).toNat * Nat.pow 10 k.toNat)

def Rounding.holds (r : Rounding) (k : Int) (c : Nat) : Bool :=
  let (num,den) := r.unit k
  if r.closed then decide (r.low * num ≤ c * den ∧ c * den ≤ r.high * num)
  else decide (r.low * num < c * den ∧ c * den < r.high * num)

def Rounding.onGrid (r : Rounding) (k : Int) : Option Nat :=
  -- Of two multiples the nearer, of two as near the even.
  let (num,den) := r.unit k
  let below := r.point * num / den
  match r.holds k below,r.holds k (below + 1) with
  | true,true => some (roundHalfEven (r.point * num) den)
  | true,false => some below
  | false,true => some (below + 1)
  | false,false => none

def firstPlace (m : Nat) (e : Int) : Int :=
  (decimalLength (m * Nat.pow 2 e.toNat * Nat.pow 10 400 / Nat.pow 2 (-e).toNat) : Int) - 401

def withoutZeros : Nat → Nat → Int → Nat × Int
  | 0, c, k => (c,k)
  | fuel + 1, c, k => if c % 10 == 0 && c != 0 then withoutZeros fuel (c / 10) (k + 1) else (c,k)

def shortest (m : Nat) (e : Int) : Nat × Int :=
  let r := rounding m e
  let p := firstPlace m e
  match (List.range 17).findSome? fun (n : Nat) => (r.onGrid (p - n)).map (·,p - (n : Int)) with
  | some (c,k) => withoutZeros 20 c k
  | none => (0,0)

structure Layout where
  lowest : Int
  beyond : Int
  exponentDigits : Nat

def zerosText (n : Nat) : List Char := List.replicate n '0'

def Layout.exponent (layout : Layout) (p : Int) : List Char :=
  let digits := Nat.toDigits 10 p.natAbs
  'e' :: (if p < 0 then '-' else '+') :: zerosText (layout.exponentDigits - digits.length) ++ digits

def Layout.set (layout : Layout) (c : Nat) (k : Int) : List Char :=
  let digits := Nat.toDigits 10 c
  let p := k + digits.length - 1
  if layout.lowest ≤ p && p < layout.beyond then
    if p < 0 then '0' :: '.' :: zerosText (-p - 1).toNat ++ digits
    else
      let whole := digits.take (p + 1).toNat
      let part := digits.drop (p + 1).toNat
      whole ++ zerosText (p + 1 - digits.length).toNat ++ '.' :: (if part.isEmpty then ['0'] else part)
  else
    let part := digits.drop 1
    digits.take 1 ++ (if part.isEmpty then [] else '.' :: part) ++ layout.exponent p

def Double.text (layout : Layout) : Double → List Char
  | .infinite negative => (if negative then ['-'] else []) ++ ['i','n','f']
  | .finite negative m e =>
      let (c,k) := if m == 0 then (0,0) else shortest m e
      (if negative then ['-'] else []) ++ layout.set c k

end PathQuery.Decimal
