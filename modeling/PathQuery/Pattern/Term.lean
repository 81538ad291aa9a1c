import PathQuery.Fault
import PathQuery.Table
import PathQuery.Text.Casing
import PathQuery.Text.Parts

/-! Terms and triples of a pattern, and ids made into parts of variable names: runs of small letters and digits, joined
by underscores. -/
namespace PathQuery

def isFragmentChar (c : Char) : Bool := ('a' ≤ c && c ≤ 'z') || ('0' ≤ c && c ≤ '9')

def runs (s : List Char) : List (List Char) := Text.parts (fun c => !isFragmentChar c) s

def fragmentChars (s : List Char) : List Char :=
  match ['_'].intercalate (runs (Text.lower s)) with
  | [] => "path".toList
  | c :: rest => if c.isDigit then "p_".toList ++ c :: rest else c :: rest

def fragment (s : String) : String := String.ofList (fragmentChars s.toList)

inductive Term where
  | var (name : String)
  | iri (value : String)
  deriving DecidableEq, Repr

abbrev Renaming := Table String String

def variableName (s : String) : String := match s.toList with
  | '?' :: rest => String.ofList rest
  | _ => s

namespace Term

def ofVariable (name : String) : Except Fault Term :=
  if name = "" then .error .emptyVariable else .ok (var (variableName name))

def name? : Term → Option String
  | var name => some name
  | iri _ => none

def rename (names : Renaming) : Term → Term
  | var name => match names.find? name with
    | some other => var (variableName other)
    | none => var name
  | iri value => iri value

def fits (names : Renaming) (term : Term) : Bool :=
  (term.name?.bind names.find?).all (· ≠ "")

theorem renameEmpty (term : Term) : term.rename .empty = term := by
  cases term <;> simp [rename,Table.empty,Table.find?,Table.lookup]

end Term

structure Triple where
  subject : Term
  predicate : Term
  object : Term
  deriving DecidableEq, Repr

namespace Triple

def terms (t : Triple) : List Term := [t.subject,t.predicate,t.object]

def varNames (t : Triple) : List String := t.terms.filterMap Term.name?

def rename (names : Renaming) (t : Triple) : Triple :=
  ⟨t.subject.rename names,t.predicate.rename names,t.object.rename names⟩

def fits (names : Renaming) (t : Triple) : Bool := t.terms.all (Term.fits names)

end Triple

end PathQuery
