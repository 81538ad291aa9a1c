import PathQuery.Fault
import PathQuery.Decimal.Integer
import PathQuery.Text.Casing

/-! Reading a value as something narrower: a flag, an integer, a key, a sequence. -/
namespace PathQuery.Value

def trueWords : List String := ["true","yes","on","1"]

def falseWords : List String := ["false","no","off","0",""]

def folded (s : String) : String := String.ofList (Text.lower (Text.trim s.toList))

def toFlag (name : String) : Value → Except Fault Bool
  | null => .ok false
  | flag b => .ok b
  | integer 0 => .ok false
  | integer 1 => .ok true
  | text s =>
      if trueWords.contains (folded s) then .ok true
      else if falseWords.contains (folded s) then .ok false
      else refuse (.notFlag name (text s))
  | got => refuse (.notFlag name got)

def toInteger : Value → Except Fault Int
  | flag b => .ok (if b then 1 else 0)
  | integer n => .ok n
  | decimal x => match x.truncate with
    | some n => .ok n
    | none => .error .infinite
  | text s => match Decimal.readInteger s.toList with
    | some n => .ok n
    | none => refuse (.notInteger s)
  | _ => .error .unusable

def toItems (value : Value) : Except Fault (List Value) :=
  match value.items? with
  | some items => .ok items
  | none => .error .unusable

def toKey : Value → Except Fault (Option String)
  | text s => .ok (some s)
  | list _ => .error .unusable
  | mapping _ => .error .unusable
  | _ => .ok none

def toKeys (value : Value) : Except Fault (List String) := do
  let items ← value.toItems
  let keys ← items.mapM toKey
  .ok (keys.filterMap id)

theorem toFlagOfFlag (name : String) (b : Bool) : toFlag name (flag b) = .ok b := rfl

end PathQuery.Value
