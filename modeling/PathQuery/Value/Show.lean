import PathQuery.Value.Basic
import PathQuery.Decimal.Shortest
import PathQuery.Text.Blank
import PathQuery.Text.Quoted

/-! Values as messages and labels show them. -/
namespace PathQuery.Value

def decimalLayout : Decimal.Layout := ⟨-4,16,2⟩

def integerText (n : Int) : List Char :=
  (if n < 0 then ['-'] else []) ++ Nat.toDigits 10 n.natAbs

def separated : List (List Char) → List Char
  | [] => []
  | [part] => part
  | part :: next :: parts => part ++ ',' :: ' ' :: separated (next :: parts)

mutual

def quoted : Value → List Char
  | null => "None".toList
  | flag true => "True".toList
  | flag false => "False".toList
  | integer n => integerText n
  | decimal x => x.text decimalLayout
  | text s => Text.quoted s.toList
  | list items => '[' :: separated (quotedItems items) ++ [']']
  | mapping fields => '\x7b' :: separated (quotedFields fields) ++ ['\x7d']

def quotedItems : List Value → List (List Char)
  | [] => []
  | item :: rest => quoted item :: quotedItems rest

def quotedFields : List (String × Value) → List (List Char)
  | [] => []
  | (name,value) :: rest => (Text.quoted name.toList ++ ':' :: ' ' :: quoted value) :: quotedFields rest

end

def quotedText (value : Value) : String := String.ofList value.quoted

def bare : Value → String
  | text s => s
  | value => value.quotedText

def label (value : Value) : String := Text.strip value.bare

theorem bareText (s : String) : (text s).bare = s := rfl

end PathQuery.Value
