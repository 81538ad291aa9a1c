import PathQuery.Namespace
import PathQuery.Pattern.Names
import PathQuery.Pattern.Term
import PathQuery.Schema.Element

/-! The triples along a property path, and the variables at its classes and at its end. -/
namespace PathQuery

inductive Stop where
  | root
  | inner
  | value
  deriving DecidableEq, Repr

/-- What a variable of a path stands for: the start of the path up to a stop, within a context. With
an owner it is for one node alone. -/
structure Stretch where
  context : String
  stop : Stop
  tokens : List String
  owner : Option String
  deriving DecidableEq, Repr

def typeTriple (name iri : String) : Triple := ⟨.var name,.iri rdfType,.iri iri⟩

def linkTriple (source token target : String) : Triple :=
  let (iri,inverse) := splitInverse token
  if inverse then ⟨.var target,.iri iri,.var source⟩ else ⟨.var source,.iri iri,.var target⟩

theorem linkNames {source token target x : String} :
    x ∈ (linkTriple source token target).varNames ↔ x = source ∨ x = target := by
  unfold linkTriple
  split
  split
  · have ends : x ∈ [target,source] ↔ x = source ∨ x = target := by simp [or_comm]
    exact ends
  · have ends : x ∈ [source,target] ↔ x = source ∨ x = target := by simp
    exact ends

def classIri (token : String) : String := (splitInverse token).1

structure Walk where
  names : Names Stretch
  current : String
  triples : List Triple

structure Walker where
  context : String
  owner : Option String
  stem : String
  selected : String

namespace Walker

def stretch (w : Walker) (stop : Stop) (tokens : List String) : Stretch := ⟨w.context,stop,tokens,w.owner⟩

def stepWord (step : Nat) : String := "step_" ++ toString step

def onward (w : Walker) (names : Names Stretch) (current : String) (behind : List String) (step : Nat) :
    List String → Walk
  | [] => ⟨names,current,[]⟩
  | [predicate] =>
      let (value,names) := names.name (w.stretch .value (behind ++ [predicate])) w.selected "value"
      ⟨names,value,[linkTriple current predicate value]⟩
  | predicate :: cls :: rest =>
      let tokens := behind ++ [predicate,cls]
      let wish := if rest.isEmpty then w.selected else w.stem ++ "_" ++ stepWord step
      let (next,names) := names.name (w.stretch .inner tokens) wish (stepWord step)
      let walk := w.onward names next tokens (step + 1) rest
      { walk with
        triples := linkTriple current predicate next :: typeTriple next (classIri cls) :: walk.triples }

def walk? (w : Walker) (names : Names Stretch) : List String → Option Walk
  | [] => none
  | cls :: rest =>
      let (root,names) := names.name (w.stretch .root [classIri cls]) (w.stem ++ "_root") "root"
      let walk := w.onward names root [cls] 1 rest
      some { walk with triples := typeTriple root (classIri cls) :: walk.triples }

end Walker

end PathQuery
