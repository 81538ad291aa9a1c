import PathQuery.Namespace

/-! How a query is to be shaped: zero counts, full prefixes, order, limit, namespaces. -/
namespace PathQuery

inductive OrderDirection where
  | ascending
  | descending
  deriving DecidableEq, Repr

namespace OrderDirection

def label : OrderDirection → String
  | ascending => "ASC"
  | descending => "DESC"

def ofWord? (s : String) : Option OrderDirection :=
  let word := Text.upper (Text.trim s.toList)
  if word = "ASC".toList then some ascending
  else if word = "DESC".toList then some descending
  else none

end OrderDirection

structure QueryOptions where
  includeZeroCounts : Bool
  fullPrefixes : Bool
  orderVariable : Option String
  orderDirection : OrderDirection
  limit : Option Nat
  namespaces : NamespaceTable
  deriving DecidableEq, Repr

namespace QueryOptions

def standard : QueryOptions := ⟨false,false,none,.descending,none,.standard⟩

def isVariableChar (c : Char) : Bool := c.isAlphanum || c == '_'

def variableOf (s : String) : Except Fault (Option String) :=
  let name := (Text.trim s.toList).dropWhile (· == '?')
  if name.isEmpty then .ok none
  else if name.all isVariableChar then .ok (some (String.ofList name))
  else refuse (.notVariableName (String.ofList name))

def directionOf : Option String → Except Fault OrderDirection
  | none => .ok .descending
  | some s =>
      if s = "" then .ok .descending
      else match OrderDirection.ofWord? s with
        | some d => .ok d
        | none => refuse (.unknownDirection s)

def limitOf : Value → Except Fault (Option Nat)
  | .flag _ => .ok none
  | value => match value.toInteger with
    | .ok n => .ok (if 0 < n then some n.toNat else none)
    | .error .infinite => .error .infinite
    | .error _ => .ok none

structure Settings where
  includeZeroCounts : Bool
  fullPrefixes : Bool
  orderVariable : Option String
  orderDirection : Option String
  limit : Value
  namespaces : NamespaceTable

def Settings.unset : Settings := ⟨false,false,none,none,.null,.standard⟩

inductive Setting where
  | includeZeroCounts
  | fullPrefixes
  | orderVariable
  | orderDirection
  | limit
  | namespaces
  deriving DecidableEq, Repr

def settingNamed (name : String) : Option Setting :=
  -- Saved selections use names of their own for some settings.
  if name = "include_zero_count_results" || name = "includeZeroCountResults" then some .includeZeroCounts
  else if name = "include_full_prefix_constraints" || name = "includeFullPrefixConstraints" ||
      name = "includeFullPrefixConstraintsWhenCentralNotTopModel" then some .fullPrefixes
  else if name = "order_by_variable" || name = "orderByVariableName" then some .orderVariable
  else if name = "order_by_direction" || name = "orderByDirection" then some .orderDirection
  else if name = "limit" || name = "queryLimit" then some .limit
  else if name = "namespaces" then some .namespaces
  else none

def wordOf : Value → Option String
  | .null => none
  | value => some value.bare

def Settings.set (s : Settings) (name : String) (value : Value) : Except Fault Settings :=
  match settingNamed name with
  | some .includeZeroCounts => do .ok { s with includeZeroCounts := ← value.toFlag name }
  | some .fullPrefixes => do .ok { s with fullPrefixes := ← value.toFlag name }
  | some .orderVariable => .ok { s with orderVariable := wordOf value }
  | some .orderDirection => .ok { s with orderDirection := wordOf value }
  | some .limit => .ok { s with limit := value }
  | some .namespaces =>
      if value.holds then do .ok { s with namespaces := ← NamespaceTable.ofValue value } else .ok s
  | none => .ok s

def ofSettings (s : Settings) : Except Fault QueryOptions := do
  let direction ← directionOf s.orderDirection
  let name ← match s.orderVariable with
    | some given => variableOf given
    | none => .ok none
  let limit ← limitOf s.limit
  .ok ⟨s.includeZeroCounts,s.fullPrefixes,name,direction,limit,s.namespaces⟩

def ofFields (fields : List (String × Value)) : Except Fault QueryOptions := do
  ofSettings (← fields.foldlM (fun s field => s.set field.1 field.2) Settings.unset)

def ofValue : Value → Except Fault QueryOptions
  | .null => .ok standard
  | .mapping fields => ofFields fields
  | value => refuse (.optionsNotMapping value.kind)

def toValue (o : QueryOptions) : Value :=
  .mapping
    [("include_zero_count_results",.flag o.includeZeroCounts),
      ("include_full_prefix_constraints",.flag o.fullPrefixes),
      ("order_by_variable",Value.ofOption .text o.orderVariable),
      ("order_by_direction",.text o.orderDirection.label),
      ("limit",Value.ofOption (fun n : Nat => .integer n) o.limit),
      ("namespaces",o.namespaces.toValue)]

end QueryOptions

end PathQuery
