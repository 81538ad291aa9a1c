import PathQuery.Namespace
import PathQuery.Pattern.Term

/-! The lines of a pattern. -/
namespace PathQuery

structure Scope where
  id : String
  depth : Int
  deriving DecidableEq, Repr

inductive Line where
  | blank
  | note (depth : Int) (text : String)
  | marker (text : String)
  | opening (scope : Scope)
  | closing (scope : Scope)
  | triple (depth : Int) (triple : Triple)
  deriving DecidableEq, Repr

def indent (depth : Int) : List Char := List.replicate (2 * (depth + 1).toNat) ' '

def Term.text (namespaces : NamespaceTable) : Term → List Char
  | .var name => '?' :: name.toList
  | .iri value => (namespaces.compact value).toList

def Triple.text (namespaces : NamespaceTable) (t : Triple) : List Char :=
  t.subject.text namespaces ++ ' ' :: t.predicate.text namespaces ++ ' ' :: t.object.text namespaces ++
    [' ','.']

namespace Line

def text (namespaces : NamespaceTable) : Line → List Char
  | blank => []
  | note depth text => indent depth ++ text.toList
  | marker text => text.toList
  | opening scope => indent scope.depth ++ "OPTIONAL \x7b".toList
  | closing scope => indent scope.depth ++ ['\x7d']
  | triple depth t => indent depth ++ t.text namespaces

def triple? : Line → Option Triple
  | triple _ t => some t
  | _ => none

def rename (names : Renaming) : Line → Line
  | triple depth t => triple depth (t.rename names)
  | line => line

end Line

def writtenTriples (lines : List Line) : List Triple := lines.filterMap Line.triple?

def Term.label? (namespaces : NamespaceTable) : Term → Option String
  | .var _ => none
  | .iri value =>
      if value = rdfType then none else (namespaces.labelFor value).filter (· ≠ "")

def Triple.labels (namespaces : NamespaceTable) (t : Triple) : List String :=
  t.terms.filterMap (Term.label? namespaces)

end PathQuery
