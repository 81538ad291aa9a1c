import PathQuery.Value.Convert

/-! An ordered table of prefixes, by which IRIs are shortened. -/
namespace PathQuery

def rdfType : String := "http://www.w3.org/1999/02/22-rdf-syntax-ns#type"

structure NamespaceEntry where
  label : String
  iri : String
  deriving DecidableEq, Repr

structure NamespaceTable where
  entries : List NamespaceEntry
  deriving DecidableEq, Repr

namespace NamespaceTable

def standard : NamespaceTable := ⟨[
  ⟨"aaao","https://ontology.swissartresearch.net/aaao/"⟩,
  ⟨"crm","http://www.cidoc-crm.org/cidoc-crm/"⟩,
  ⟨"lrmoo","http://iflastandards.info/ns/lrm/lrmoo/"⟩,
  ⟨"owl","http://www.w3.org/2002/07/owl#"⟩,
  ⟨"rdfschema","http://www.w3.org/2000/01/rdf-schema#"⟩,
  ⟨"star","https://r11.eu/ns/star/"⟩,
  ⟨"skos","http://www.w3.org/2004/02/skos/core#"⟩,
  ⟨"r11","https://r11.eu/ns/spec/"⟩,
  ⟨"r11pros","https://r11.eu/ns/prosopography/"⟩,
  ⟨"pwro","https://ontology.swissartresearch.net/pwro/"⟩]⟩

def pairOf : Value → Except Fault (Value × Value)
  | .mapping fields => .ok (Value.member fields "prefix",Value.member fields "iri")
  | value => do
      match ← value.toItems with
      | [label,iri] => .ok (label,iri)
      | _ :: _ :: _ :: _ => refuse .pairTooLong
      | items => refuse (.pairTooShort items.length)

def entryOf (value : Value) : Except Fault NamespaceEntry := do
  let (label,iri) ← pairOf value
  if label.holds && iri.holds then .ok ⟨label.label,iri.label⟩
  else refuse (.namespaceIncomplete value)

def ofValue (value : Value) : Except Fault NamespaceTable := do
  let entries ← (← value.toItems).mapM entryOf
  .ok ⟨entries⟩

def toValue (t : NamespaceTable) : Value :=
  .list (t.entries.map fun e => .mapping [("prefix",.text e.label),("iri",.text e.iri)])

def isLocalStart (c : Char) : Bool := c.isAlphanum || c == '_'

def isLocalEnd (c : Char) : Bool := isLocalStart c || c == '-'

def isPlainLocal (s : List Char) : Bool :=
  s.head?.any isLocalStart && s.getLast?.any isLocalEnd && s.all fun c => isLocalEnd c || c == '.'

def isLocal (s : List Char) : Bool :=
  -- One line break may follow a local name.
  isPlainLocal s || (s.getLast? == some '\n' && isPlainLocal s.dropLast)

def dropStart? : List Char → List Char → Option (List Char)
  | [], s => some s
  | a :: start, b :: s => if a = b then dropStart? start s else none
  | _ :: _, [] => none

def NamespaceEntry.local? (e : NamespaceEntry) (iri : String) : Option String :=
  match dropStart? e.iri.toList iri.toList with
  | some rest => if isLocal rest then some (String.ofList rest) else none
  | none => none

def match? (t : NamespaceTable) (iri : String) : Option (String × String) :=
  t.entries.findSome? fun e => (NamespaceEntry.local? e iri).map (e.label,·)

def labelFor (t : NamespaceTable) (iri : String) : Option String := (t.match? iri).map (·.1)

def compact (t : NamespaceTable) (iri : String) : String :=
  if iri = rdfType then "a"
  else match t.match? iri with
    | some (label,name) => label ++ ":" ++ name
    | none => "<" ++ iri ++ ">"

def abbreviate (t : NamespaceTable) (iri : String) : String :=
  match t.match? iri with
  | some (label,name) => label ++ ":" ++ name
  | none => iri

def declaration (e : NamespaceEntry) : String := "PREFIX " ++ e.label ++ ": <" ++ e.iri ++ ">"

def declarations (t : NamespaceTable) (used : List String) : List String :=
  (t.entries.filter fun e => used.contains e.label).map declaration

theorem dropStartEq {start s rest : List Char} (h : dropStart? start s = some rest) : s = start ++ rest := by
  induction start generalizing s with
  | nil => simpa [dropStart?] using h
  | cons a start ih =>
      cases s with
      | nil => simp [dropStart?] at h
      | cons b s =>
          unfold dropStart? at h
          split at h
          · next same => subst same; rw [ih h]; rfl
          · contradiction

theorem matchSpells {t : NamespaceTable} {iri label name : String} (h : t.match? iri = some (label,name)) :
    ∃ e ∈ t.entries, e.label = label ∧ iri = e.iri ++ name ∧ isLocal name.toList = true := by
  unfold match? at h
  obtain ⟨e,member,found⟩ := List.exists_of_findSome?_eq_some h
  rw [Option.map_eq_some_iff] at found
  obtain ⟨rest,hr,pair⟩ := found
  obtain ⟨rfl,rfl⟩ := Prod.mk.inj pair
  refine ⟨e,member,rfl,?_⟩
  unfold NamespaceEntry.local? at hr
  split at hr
  · next tail cut =>
    split at hr
    · next plain =>
      cases Option.some.inj hr
      have := dropStartEq cut
      refine ⟨?_,by simpa using plain⟩
      apply String.toList_inj.mp
      simp [this]
    · contradiction
  · contradiction

end NamespaceTable

end PathQuery
