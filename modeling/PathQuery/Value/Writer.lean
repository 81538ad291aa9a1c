import PathQuery.Value.Show

/-! Writing a value as text, on one line or one member a line. Characters beyond ASCII stand as they
are. -/
namespace PathQuery.Value

def escaped (c : Char) : List Char :=
  if c == '"' || c == '\\' then ['\\',c]
  else if c == '\n' then ['\\','n']
  else if c == '\r' then ['\\','r']
  else if c == '\t' then ['\\','t']
  else if c.toNat == 8 then ['\\','b']
  else if c.toNat == 12 then ['\\','f']
  else if c.toNat < 32 then ['\\','u'] ++ Text.hex 4 c.toNat
  else [c]

def writtenText (s : String) : List Char := '"' :: s.toList.flatMap escaped ++ ['"']

def writtenDecimal : Decimal.Double → List Char
  | .infinite negative => (if negative then ['-'] else []) ++ "Infinity".toList
  | x => x.text decimalLayout

mutual

def written : Value → List Char
  | null => "null".toList
  | flag true => "true".toList
  | flag false => "false".toList
  | integer n => integerText n
  | decimal x => writtenDecimal x
  | text s => writtenText s
  | list items => '[' :: separated (writtenItems items) ++ [']']
  | mapping fields => '\x7b' :: separated (writtenFields fields) ++ ['\x7d']

def writtenItems : List Value → List (List Char)
  | [] => []
  | item :: rest => written item :: writtenItems rest

def writtenFields : List (String × Value) → List (List Char)
  | [] => []
  | (name,value) :: rest => (writtenText name ++ ':' :: ' ' :: written value) :: writtenFields rest

end

def lineStart (depth : Nat) : List Char := '\n' :: List.replicate (2 * depth) ' '

def stacked (depth : Nat) (opening closing : Char) (members : List (List Char)) : List Char :=
  opening :: stackedFrom members ++ lineStart depth ++ [closing]
where
  stackedFrom : List (List Char) → List Char
    | [] => []
    | [part] => lineStart (depth + 1) ++ part
    | part :: next :: parts => lineStart (depth + 1) ++ part ++ ',' :: stackedFrom (next :: parts)

mutual

def indented (depth : Nat) : Value → List Char
  | list [] => ['[',']']
  | list (item :: rest) => stacked depth '[' ']' (indentedItems (depth + 1) (item :: rest))
  | mapping [] => ['\x7b','\x7d']
  | mapping (entry :: rest) => stacked depth '\x7b' '\x7d' (indentedFields (depth + 1) (entry :: rest))
  | null => "null".toList
  | flag true => "true".toList
  | flag false => "false".toList
  | integer n => integerText n
  | decimal x => writtenDecimal x
  | text s => writtenText s

def indentedItems (depth : Nat) : List Value → List (List Char)
  | [] => []
  | item :: rest => indented depth item :: indentedItems depth rest

def indentedFields (depth : Nat) : List (String × Value) → List (List Char)
  | [] => []
  | (name,value) :: rest => (writtenText name ++ ':' :: ' ' :: indented depth value) :: indentedFields depth rest

end

def toLine (value : Value) : String := String.ofList value.written

def toBlock (value : Value) : String := String.ofList (value.indented 0)

end PathQuery.Value
