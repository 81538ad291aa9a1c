import PathQuery.Text.Blank
import PathQuery.Text.Character

/-! Integers as people write them: blanks around, a sign, digits of any script, single underscores
between digits. -/
namespace PathQuery.Decimal

def groupedDigits : List Char → Option (List Nat)
  | [] => none
  | [c] => (Text.digitValue c).map ([·])
  | c :: '_' :: rest => do
      let d ← Text.digitValue c
      let more ← groupedDigits rest
      some (d :: more)
  | c :: rest => do
      let d ← Text.digitValue c
      let more ← groupedDigits rest
      some (d :: more)

def ofDigits (digits : List Nat) : Nat := digits.foldl (fun n d => 10 * n + d) 0

def isMargin (c : Char) : Bool := Text.isBlank c && !(28 ≤ c.toNat && c.toNat ≤ 31)

def maxDigits : Nat := 4300

def readNatural (s : List Char) : Option Nat := do
  let digits ← groupedDigits s
  if digits.length ≤ maxDigits then some (ofDigits digits) else none

def readInteger (s : List Char) : Option Int :=
  let bare := ((s.dropWhile isMargin).reverse.dropWhile isMargin).reverse
  match bare with
  | '-' :: rest => (readNatural rest).map fun n => -(n : Int)
  | '+' :: rest => (readNatural rest).map Int.ofNat
  | rest => (readNatural rest).map Int.ofNat

end PathQuery.Decimal
