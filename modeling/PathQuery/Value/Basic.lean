import PathQuery.Decimal.Double

/-! Values of a document: what an input file can hold, with the members of a mapping in order. -/
namespace PathQuery

inductive Value where
  | null
  | flag (value : Bool)
  | integer (value : Int)
  | decimal (value : Decimal.Double)
  | text (value : String)
  | list (items : List Value)
  | mapping (fields : List (String × Value))
  deriving Repr

inductive Kind where
  | null
  | flag
  | integer
  | decimal
  | text
  | list
  | mapping
  deriving DecidableEq, Repr

def Kind.label : Kind → String
  | .null => "NoneType"
  | .flag => "bool"
  | .integer => "int"
  | .decimal => "float"
  | .text => "str"
  | .list => "list"
  | .mapping => "dict"

namespace Value

def kind : Value → Kind
  | null => .null
  | flag _ => .flag
  | integer _ => .integer
  | decimal _ => .decimal
  | text _ => .text
  | list _ => .list
  | mapping _ => .mapping

def holds : Value → Bool
  | null => false
  | flag b => b
  | integer n => n != 0
  | decimal x => !x.isZero
  | text s => s != ""
  | list items => !items.isEmpty
  | mapping fields => !fields.isEmpty

def fieldOf (name : String) : List (String × Value) → Option Value
  | [] => none
  | entry :: rest => if entry.1 = name then some entry.2 else fieldOf name rest

def member (fields : List (String × Value)) (name : String) : Value :=
  (fieldOf name fields).getD null

def ofOption (toValue : α → Value) : Option α → Value
  | none => null
  | some a => toValue a

def texts (items : List String) : Value := list (items.map text)

def items? : Value → Option (List Value)
  | list items => some items
  | text s => some (s.toList.map fun c => text (String.singleton c))
  | mapping fields => some (fields.map fun entry => text entry.1)
  | _ => none

/-! Equality, decided member by member. -/
mutual

def same : Value → Value → Bool
  | null, null => true
  | flag a, flag b => a == b
  | integer a, integer b => a == b
  | decimal a, decimal b => decide (a = b)
  | text a, text b => decide (a = b)
  | list a, list b => sameItems a b
  | mapping a, mapping b => sameFields a b
  | _, _ => false

def sameItems : List Value → List Value → Bool
  | [], [] => true
  | a :: as, b :: bs => same a b && sameItems as bs
  | _, _ => false

def sameFields : List (String × Value) → List (String × Value) → Bool
  | [], [] => true
  | (j,a) :: as, (k,b) :: bs => decide (j = k) && same a b && sameFields as bs
  | _, _ => false

end

mutual

theorem eqOfSame : ∀ {a b : Value}, same a b = true → a = b
  | null, b, h => by cases b <;> simp_all [same]
  | flag x, b, h => by cases b <;> simp_all [same]
  | integer x, b, h => by cases b <;> simp_all [same]
  | decimal x, b, h => by cases b <;> simp_all [same]
  | text x, b, h => by cases b <;> simp_all [same]
  | list xs, b, h => by
      cases b with
      | list ys => rw [same] at h; rw [eqOfSameItems h]
      | _ => simp [same] at h
  | mapping xs, b, h => by
      cases b with
      | mapping ys => rw [same] at h; rw [eqOfSameFields h]
      | _ => simp [same] at h

theorem eqOfSameItems : ∀ {as bs : List Value}, sameItems as bs = true → as = bs
  | [], bs, h => by cases bs <;> simp_all [sameItems]
  | a :: as, bs, h => by
      cases bs with
      | nil => simp [sameItems] at h
      | cons b bs =>
          rw [sameItems,Bool.and_eq_true] at h
          rw [eqOfSame h.1,eqOfSameItems h.2]

theorem eqOfSameFields : ∀ {as bs : List (String × Value)}, sameFields as bs = true → as = bs
  | [], bs, h => by cases bs <;> simp_all [sameFields]
  | (j,a) :: as, bs, h => by
      cases bs with
      | nil => simp [sameFields] at h
      | cons b bs =>
          obtain ⟨k,b⟩ := b
          rw [sameFields,Bool.and_eq_true,Bool.and_eq_true,decide_eq_true_eq] at h
          rw [h.1.1,eqOfSame h.1.2,eqOfSameFields h.2]

end

mutual

theorem sameRefl : ∀ a : Value, same a a = true
  | null => by simp [same]
  | flag _ => by simp [same]
  | integer _ => by simp [same]
  | decimal _ => by simp [same]
  | text _ => by simp [same]
  | list xs => by rw [same]; exact sameItemsRefl xs
  | mapping xs => by rw [same]; exact sameFieldsRefl xs

theorem sameItemsRefl : ∀ as : List Value, sameItems as as = true
  | [] => by simp [sameItems]
  | a :: as => by rw [sameItems,sameRefl a,sameItemsRefl as]; rfl

theorem sameFieldsRefl : ∀ as : List (String × Value), sameFields as as = true
  | [] => by simp [sameFields]
  | (_,a) :: as => by rw [sameFields,sameRefl a,sameFieldsRefl as]; simp

end

theorem sameIff {a b : Value} : same a b = true ↔ a = b :=
  ⟨eqOfSame,fun h => h ▸ sameRefl a⟩

instance : DecidableEq Value := fun _ _ => decidable_of_iff _ sameIff

end Value

end PathQuery
