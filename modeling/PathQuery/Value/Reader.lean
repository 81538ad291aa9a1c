import PathQuery.Table
import PathQuery.Text.Character
import PathQuery.Value.Basic

/-! Reading a value from its text: objects, arrays, strings with their escapes, numbers, constants. A number with a point or
an exponent is a decimal, any other an integer. The value files are YAML 1.1, of which only this syntax is read here: block
style, anchors, tags, comments and words without quotes are left out. Of numbers that matters in one place, as YAML takes
for a text what has an exponent but no point, or no sign in front of the exponent. -/
namespace PathQuery.Value

def isSpace (c : Char) : Bool := c == ' ' || c == '\t' || c == '\n' || c == '\r'

def skipSpace (s : List Char) : List Char := s.dropWhile isSpace

def simpleEscape : Char → Option Nat
  | '"' => some 34
  | '\\' => some 92
  | '/' => some 47
  | 'b' => some 8
  | 'f' => some 12
  | 'n' => some 10
  | 'r' => some 13
  | 't' => some 9
  | _ => none

def readUnits : List Char → Option (List Nat × List Char)
  | '"' :: rest => some ([],rest)
  | '\\' :: 'u' :: a :: b :: c :: d :: rest => do
      let unit ← Text.hexNumber [a,b,c,d]
      let (units,rest) ← readUnits rest
      some (unit :: units,rest)
  | '\\' :: c :: rest => do
      let unit ← simpleEscape c
      let (units,rest) ← readUnits rest
      some (unit :: units,rest)
  | c :: rest =>
      if c.toNat < 32 then none else do
        let (units,rest) ← readUnits rest
        some (c.toNat :: units,rest)
  | [] => none

def charsOfUnits : List Nat → List Char
  | high :: low :: rest =>
      if 0xD800 ≤ high && high < 0xDC00 && 0xDC00 ≤ low && low < 0xE000 then
        Char.ofNat (0x10000 + (high - 0xD800) * 0x400 + (low - 0xDC00)) :: charsOfUnits rest
      else Char.ofNat high :: charsOfUnits (low :: rest)
  | [unit] => [Char.ofNat unit]
  | [] => []

def readText (s : List Char) : Option (String × List Char) :=
  (readUnits s).map fun (units,rest) => (String.ofList (charsOfUnits units),rest)

def natOfDigits (digits : List Char) : Nat := digits.foldl (fun n c => 10 * n + (c.toNat - 48)) 0

def digitsOf (s : List Char) : List Char × List Char := (s.takeWhile Char.isDigit,s.dropWhile Char.isDigit)

def readFraction : List Char → Option (List Char × List Char)
  | '.' :: rest =>
      let (digits,after) := digitsOf rest
      if digits.isEmpty then none else some (digits,after)
  | rest => some ([],rest)

def readSignedDigits (s : List Char) : Option (Int × List Char) :=
  let (negative,s) := match s with
    | '-' :: rest => (true,rest)
    | '+' :: rest => (false,rest)
    | rest => (false,rest)
  let (digits,after) := digitsOf s
  if digits.isEmpty then none
  else some ((if negative then -(natOfDigits digits : Int) else natOfDigits digits),after)

def readExponent : List Char → Option (Option Int × List Char)
  | c :: rest =>
      if c == 'e' || c == 'E' then (readSignedDigits rest).map fun (n,after) => (some n,after)
      else some (none,c :: rest)
  | [] => some (none,[])

def readNumber (s : List Char) : Option (Value × List Char) := do
  let (negative,s) := match s with
    | '-' :: rest => (true,rest)
    | rest => (false,rest)
  let (whole,s) := digitsOf s
  if whole.isEmpty || (whole.head? == some '0' && 1 < whole.length) then none else
    let (fraction,s) ← readFraction s
    let (exponent,s) ← readExponent s
    if fraction.isEmpty && exponent.isNone then
      some (integer (if negative then -(natOfDigits whole : Int) else natOfDigits whole),s)
    else
      let size := exponent.getD 0 - fraction.length
      some (decimal (Decimal.Double.ofDecimal negative (natOfDigits (whole ++ fraction)) size),s)

def isYamlDecimal (word : List Char) : Bool :=
  word.contains '.' && match word.dropWhile fun c => c != 'e' && c != 'E' with
    | _ :: c :: _ => c == '+' || c == '-'
    | _ => true

def readYamlNumber (s : List Char) : Option (Value × List Char) := do
  let (value,after) ← readNumber s
  let word := s.take (s.length - after.length)
  match value with
  | decimal x => some (if isYamlDecimal word then decimal x else text (String.ofList word),after)
  | _ => some (value,after)

def dropWord (word : String) (s : List Char) : Option (List Char) :=
  if word.toList.isPrefixOf s then some (s.drop word.length) else none

section

variable (number : List Char → Option (Value × List Char))

mutual

def readFrom : Nat → List Char → Option (Value × List Char)
  -- `fuel` bounds the nesting and the members together; twice the length of the text is enough.
  | 0, _ => none
  | fuel + 1, s => match skipSpace s with
    | '"' :: rest => (readText rest).map fun (t,after) => (text t,after)
    | '[' :: rest => match skipSpace rest with
      | ']' :: after => some (list [],after)
      | _ => (readItems fuel rest).map fun (items,after) => (list items,after)
    | '\x7b' :: rest => match skipSpace rest with
      | '\x7d' :: after => some (mapping [],after)
      | _ => (readFields fuel rest).map fun (fields,after) => (mapping fields,after)
    | 't' :: rest => (dropWord "rue" rest).map (flag true,·)
    | 'f' :: rest => (dropWord "alse" rest).map (flag false,·)
    | 'n' :: rest => (dropWord "ull" rest).map (null,·)
    | rest => number rest

def readItems : Nat → List Char → Option (List Value × List Char)
  | 0, _ => none
  | fuel + 1, s => do
      let (item,s) ← readFrom fuel s
      match skipSpace s with
      | ',' :: rest => do
          let (items,after) ← readItems fuel rest
          some (item :: items,after)
      | ']' :: after => some ([item],after)
      | _ => none

def readFields : Nat → List Char → Option (List (String × Value) × List Char)
  | 0, _ => none
  | fuel + 1, s => match skipSpace s with
    | '"' :: rest => do
        let (name,s) ← readText rest
        match skipSpace s with
        | ':' :: rest => do
            let (value,s) ← readFrom fuel rest
            match skipSpace s with
            | ',' :: rest => do
                let (fields,after) ← readFields fuel rest
                some ((name,value) :: fields,after)
            | '\x7d' :: after => some ([(name,value)],after)
            | _ => none
        | _ => none
    | _ => none

end

end

mutual

def settle : Value → Value
  | list items => list (settleItems items)
  | mapping fields => mapping (Table.ofList (settleFields fields)).entries
  | value => value

def settleItems : List Value → List Value
  | [] => []
  | item :: rest => settle item :: settleItems rest

def settleFields : List (String × Value) → List (String × Value)
  | [] => []
  | (name,value) :: rest => (name,settle value) :: settleFields rest

end

def endsQuoted (inQuotes : Bool) : List Char → Bool
  | [] => inQuotes
  | '\\' :: c :: rest => if inQuotes then endsQuoted true rest else endsQuoted (c == '"') rest
  | c :: rest => endsQuoted (inQuotes != (c == '"')) rest

def readWith (number : List Char → Option (Value × List Char)) (s : List Char) : Option Value :=
  match readFrom number (2 * s.length + 2) s with
  | some (value,rest) => if (skipSpace rest).isEmpty then some value.settle else none
  | none => none

def read? (s : List Char) : Option Value := readWith readNumber s

def readYaml? (s : List Char) : Option Value := readWith readYamlNumber s

end PathQuery.Value
