import PathQuery.Value.Show

/-! Why an input is turned down or cannot be worked with, and the words for it. -/
namespace PathQuery

inductive Refusal where
  | notFlag (name : String) (got : Value)
  | unknownClassification (got : String)
  | elementNotMapping (key : Option String) (got : Kind)
  | elementWithoutId (got : Value)
  | modelShape (got : Kind)
  | sectionNotList (name : String) (got : Kind)
  | selectionNotMapping (got : Kind)
  | edgeNotMapping (got : Kind)
  | optionsNotMapping (got : Kind)
  | documentNotMapping (got : Kind)
  | namespaceIncomplete (got : Value)
  | pairTooShort (size : Nat)
  | pairTooLong
  | unknownDirection (got : String)
  | notVariableName (got : String)
  | notInteger (got : String)
  | badCodePoint (digits : String)
  | unreadable (file : String)
  | zeroInName
  deriving DecidableEq, Repr

def inQuotes (s : String) : String := String.ofList (Text.quoted s.toList)

def Refusal.message : Refusal → String
  | notFlag name got => name ++ " must be a boolean, got " ++ got.quotedText
  | unknownClassification got => inQuotes got ++ " is not a valid Classification"
  | elementNotMapping key got =>
      "Path element " ++ (match key with | some k => inQuotes k | none => "None") ++
        " must be a mapping, got " ++ got.label
  | elementWithoutId got => "Path element without id: " ++ got.quotedText
  | modelShape got => "Path model must be a mapping or a list, got " ++ got.label
  | sectionNotList name got => "Selection '" ++ name ++ "' must be a list, got " ++ got.label
  | selectionNotMapping got => "Selection must be a mapping, got " ++ got.label
  | edgeNotMapping got => "Selection edge must be a mapping, got " ++ got.label
  | optionsNotMapping got => "Options must be a mapping, got " ++ got.label
  | documentNotMapping got => "Selection document must be a mapping, got " ++ got.label
  | namespaceIncomplete got => "Namespace entry needs a prefix and an iri: " ++ got.quotedText
  | pairTooShort size => "not enough values to unpack (expected 2, got " ++ toString size ++ ")"
  | pairTooLong => "too many values to unpack (expected 2)"
  | unknownDirection got => "order_by_direction must be ASC or DESC, got " ++ inQuotes got
  | notVariableName got => "order_by_variable is not a variable name: " ++ inQuotes got
  | notInteger got => "invalid literal for int() with base 10: " ++ inQuotes got
  | badCodePoint digits => "Invalid unicode code point: " ++ digits
  | unreadable file => "Could not parse " ++ file
  | zeroInName => "embedded null byte"

inductive Source where
  | document
  | model
  deriving DecidableEq, Repr

def Source.label : Source → String
  | .document => "Selection document"
  | .model => "Path model"

inductive Fault where
  | refused (cause : Refusal)
  | missing (source : Source) (file : String)
  | invalidQuery
  | unusable
  | notText (got : Kind)
  | infinite
  | emptyVariable
  | malformed
  | unclosed
  | folder
  | occupied
  | notFolder
  | nameTooLong
  deriving DecidableEq, Repr

def Fault.message : Fault → Option String
  | refused cause => some cause.message
  | missing source file => some (source.label ++ " not found: " ++ file)
  | invalidQuery => some "Generated query is not valid SPARQL"
  | notText got => some ("'" ++ got.label ++ "' object has no attribute 'strip'")
  | unusable => none
  | infinite => none
  | emptyVariable => none
  | malformed => none
  | unclosed => none
  | folder => none
  | occupied => none
  | notFolder => none
  | nameTooLong => none

def Fault.ofInput : Fault → Bool
  | refused _ => true
  | missing _ _ => true
  | _ => false

def refuse {α : Type} (cause : Refusal) : Except Fault α := .error (.refused cause)

end PathQuery
