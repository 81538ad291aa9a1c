import PathQuery.Pattern.Term
import PathQuery.Proofs.Grammar.Group

/-! What the lines of a query denote: a declaration gives a prefix its IRI, and a line of three terms and a point
is a triple. The word for a type stands for it only as a predicate, and of the declarations of a prefix the last
one counts. -/
namespace PathQuery.Grammar

def cut (read : Reader) (s : List Char) : Option (List Char × List Char) :=
  (read s).map fun rest => (s.take (s.length - rest.length),rest)

def bracketed (text : List Char) : String := String.ofList (text.drop 1).dropLast

def readDeclaration (line : List Char) : Option NamespaceEntry := do
  let (label,rest) ← cut readLabel (skip (← readKeyword .PREFIX (skip line)))
  let (iri,rest) ← cut readIri (skip rest)
  if skip rest = [] then some ⟨String.ofList label.dropLast,bracketed iri⟩ else none

def prologue : List (List Char) → List NamespaceEntry
  | [] => []
  | line :: rest => match readDeclaration line with
    | some e => e :: prologue rest
    | none => []

def declaredIn (query : List Char) : List NamespaceEntry := prologue (query.splitOn '\n')

def spelling (declared : List NamespaceEntry) (label : String) : Option String :=
  (declared.reverse.find? fun e => e.label = label).map (·.iri)

def iriOf (declared : List NamespaceEntry) (text : List Char) : Option String :=
  if (readIri text).isSome then some (bracketed text)
  else do
    let (label,name) ← cut readLabel text
    some ((← spelling declared (String.ofList label.dropLast)) ++ String.ofList name)

def termOf (declared : List NamespaceEntry) : List Char → Option Term
  | [] => none
  | mark :: rest =>
      if mark == '?' || mark == '$' then some (.var (String.ofList rest))
      else (iriOf declared (mark :: rest)).map .iri

def verbOf (declared : List NamespaceEntry) (text : List Char) : Option Term :=
  if text = ['a'] then some (.iri rdfType) else termOf declared text

def readVerb : Reader := fun s => (readTerm s).or (readMark 'a' s)

def readTriple (declared : List NamespaceEntry) (line : List Char) : Option Triple := do
  let (subject,rest) ← cut readTerm (skip line)
  let (verb,rest) ← cut readVerb (skip rest)
  let (object,rest) ← cut readTerm (skip rest)
  if skip (← readMark '.' (skip rest)) = [] then
    some ⟨← termOf declared subject,← verbOf declared verb,← termOf declared object⟩
  else none

theorem cutOf {read : Reader} {token s : List Char} (h : read (token ++ s) = some s) :
    cut read (token ++ s) = some (token,s) := by
  rw [cut,h]
  simp

def IsPrefix (label : List Char) : Prop := label = [] ∨ IsLabel label

theorem readPrefix {label : List Char} (good : IsPrefix label) (s : List Char) :
    readLabel (label ++ ':' :: s) = some s := by
  rcases good with rfl | good
  · simp [readLabel,readMark,show isLetter ':' = false by decide]
  · exact readLabelOf good s

theorem prefixOpens {label : List Char} (good : IsPrefix label) (s : List Char) :
    ∃ c rest, label ++ ':' :: s = c :: rest ∧ IsVisible c ∧ c ≠ '<' ∧ c ≠ '?' ∧ c ≠ '$' := by
  rcases good with rfl | ⟨c,rest,rfl,letter,_⟩
  · exact ⟨':',s,rfl,⟨by decide,by decide⟩,by decide,by decide,by decide⟩
  · refine ⟨c,_,rfl,letterVisible letter,?_,?_,?_⟩ <;> (rintro rfl; exact absurd letter (by decide))

inductive Spelling : List Char → Prop where
  | full {iri : List Char} (chars : ∀ c ∈ iri, isIriChar c = true) : Spelling ('<' :: iri ++ ['>'])
  | short {label name : List Char} (good : IsPrefix label) (plain : NamespaceTable.isPlainLocal name = true) :
      Spelling (label ++ ':' :: name)

theorem spellingOpens {text : List Char} (spelled : Spelling text) :
    ∃ c rest, text = c :: rest ∧ IsVisible c ∧ c ≠ '?' ∧ c ≠ '$' := by
  cases spelled with
  | full chars => exact ⟨'<',_,rfl,⟨by decide,by decide⟩,by decide,by decide⟩
  | short good plain =>
      obtain ⟨c,rest,opens,visible,_,question,dollar⟩ := prefixOpens good _
      exact ⟨c,rest,opens,visible,question,dollar⟩

theorem readIriShort {label : List Char} (good : IsPrefix label) (s : List Char) :
    readIri (label ++ ':' :: s) = none := by
  obtain ⟨c,rest,opens,_,bracket,_⟩ := prefixOpens good s
  simp [opens,readIri,readMark,bracket]

theorem readSpelling {text : List Char} (spelled : Spelling text) (s : List Char) :
    readTerm (text ++ ' ' :: s) = some (' ' :: s) := by
  obtain ⟨c,rest,opens,_,question,dollar⟩ := spellingOpens spelled
  have noVar : readVar (text ++ ' ' :: s) = none := by
    rw [opens,List.cons_append]
    exact readVarOther (by simp [question,dollar]) _
  rw [readTerm,noVar,Option.none_or]
  cases spelled with
  | full chars => exact readNameOf (.full chars) (spaceStopsLocal s)
  | @short label name good plain =>
      have behind := afterLocalOf plain (spaceStopsLocal s)
      rw [List.append_assoc,List.cons_append,readName,readIriShort good,readPrefix good,Option.none_or,
        Option.map_some,behind]

theorem skipMargin {margin : List Char} (spaces : ∀ c ∈ margin, isSpace c = true) (s : List Char) :
    skip (margin ++ s) = skip s := by
  induction margin with
  | nil => rfl
  | cons c rest ih =>
      have space := spaces c (by simp)
      have first : skip (c :: (rest ++ s)) = skip (rest ++ s) := by simp [skip,skipFrom,space]
      exact first.trans (ih fun d member => spaces d (List.mem_cons_of_mem _ member))

theorem skipToSpelling {text : List Char} (spelled : Spelling text) (s : List Char) :
    skip (' ' :: (text ++ s)) = text ++ s := by
  obtain ⟨c,rest,rfl,visible,_⟩ := spellingOpens spelled
  exact skipVisible visible _

inductive VerbSpelling : List Char → Prop where
  | kind : VerbSpelling ['a']
  | spelled {text : List Char} (h : Spelling text) : VerbSpelling text

inductive ObjectSpelling : List Char → Prop where
  | var {name : List Char} (word : IsWord name) : ObjectSpelling ('?' :: name)
  | spelled {text : List Char} (h : Spelling text) : ObjectSpelling text

theorem readTripleMargin (declared : List NamespaceEntry) {margin : List Char}
    (spaces : ∀ c ∈ margin, isSpace c = true) (line : List Char) :
    readTriple declared (margin ++ line) = readTriple declared line := by
  rw [readTriple,skipMargin spaces,← readTriple]

theorem cutVerb {verb : List Char} (spelled : VerbSpelling verb) (s : List Char) :
    cut readVerb (skip (' ' :: (verb ++ ' ' :: s))) = some (verb,' ' :: s) := by
  cases spelled with
  | kind => exact @cutOf readVerb ['a'] (' ' :: s) rfl
  | spelled h =>
      rw [skipToSpelling h]
      exact cutOf (by rw [readVerb,readSpelling h]; rfl)

theorem cutObject {object : List Char} (spelled : ObjectSpelling object) (s : List Char) :
    cut readTerm (skip (' ' :: (object ++ ' ' :: s))) = some (object,' ' :: s) := by
  cases spelled with
  | @var name word =>
      have read : readTerm ('?' :: name ++ ' ' :: s) = some (' ' :: s) := by
        rw [readTerm,readVarWord word (spaceStopsVar s)]
        rfl
      exact cutOf read
  | spelled h =>
      rw [skipToSpelling h]
      exact cutOf (readSpelling h s)

theorem cutSubject {name : List Char} (word : IsWord name) (s : List Char) :
    cut readTerm (skip ('?' :: name ++ ' ' :: s)) = some ('?' :: name,' ' :: s) :=
  cutObject (.var word) s

variable {name verb object : List Char}

theorem readTripleOf (declared : List NamespaceEntry) (word : IsWord name) (verbText : VerbSpelling verb)
    (objectText : ObjectSpelling object) (predicate value : Term) :
    readTriple declared ('?' :: name ++ ' ' :: (verb ++ ' ' :: (object ++ [' ','.']))) =
        some ⟨.var (String.ofList name),predicate,value⟩ ↔
      verbOf declared verb = some predicate ∧ termOf declared object = some value := by
  have point : readMark '.' (skip [' ','.']) = some [] := rfl
  have subject : termOf declared ('?' :: name) = some (.var (String.ofList name)) := rfl
  have finished : skip [] = [] := rfl
  rw [readTriple,cutSubject word]
  simp only [bind,Option.bind_some,cutVerb verbText,cutObject objectText,point,subject,finished,if_true,
    Option.bind_eq_some_iff,Option.some.injEq,Triple.mk.injEq,true_and,exists_eq_right_right]

theorem readTripleKind (declared : List NamespaceEntry) (word : IsWord name) (verbText : VerbSpelling verb) :
    readTriple declared ('?' :: name ++ ' ' :: (verb ++ ' ' :: (['a'] ++ [' ','.']))) = none := by
  have none_ : cut readTerm (skip (' ' :: (['a'] ++ [' ','.']))) = none := rfl
  rw [readTriple,cutSubject word]
  simp only [bind,Option.bind_some,cutVerb verbText,none_]
  rfl

theorem termOfSpelling (declared : List NamespaceEntry) {text : List Char} (spelled : Spelling text) :
    termOf declared text = (iriOf declared text).map .iri := by
  obtain ⟨c,rest,rfl,_,question,dollar⟩ := spellingOpens spelled
  simp [termOf,question,dollar]

theorem prefixLine {label : List Char} (good : IsPrefix label) : '\n' ∉ label := by
  rcases good with rfl | ⟨c,rest,rfl,letter,inside,_⟩
  · simp
  · intro there
    rcases List.mem_cons.mp there with same | there
    · exact absurd (same ▸ letter) (by decide)
    · exact absurd (inside _ there) (by decide)

theorem spellingLine {text : List Char} (spelled : Spelling text) : '\n' ∉ text := by
  cases spelled with
  | full chars =>
      have inside : '\n' ∉ _ := fun there => absurd (chars '\n' there) (by decide)
      simpa using inside
  | @short label name good plain =>
      have second : '\n' ∉ name := by
        intro there
        simp only [NamespaceTable.isPlainLocal,Bool.and_eq_true,List.all_eq_true] at plain
        exact absurd (plain.2 _ there) (by decide)
      simp [prefixLine good,second]

theorem spellingNoKind {text : List Char} (spelled : Spelling text) : text ≠ ['a'] := by
  have marked : '<' ∈ text ∨ ':' ∈ text := by
    cases spelled <;> simp
  rintro rfl
  simp at marked

theorem verbOfSpelling (declared : List NamespaceEntry) {text : List Char} (spelled : Spelling text) :
    verbOf declared text = (iriOf declared text).map .iri := by
  rw [verbOf,if_neg (spellingNoKind spelled),termOfSpelling declared spelled]

theorem iriOfFull (declared : List NamespaceEntry) {iri : List Char} (chars : ∀ c ∈ iri, isIriChar c = true) :
    iriOf declared ('<' :: iri ++ ['>']) = some (String.ofList iri) := by
  have read := readIriChars chars []
  rw [iriOf,read]
  simp [bracketed]

theorem iriOfShort (declared : List NamespaceEntry) {label : List Char} (good : IsPrefix label)
    (name : List Char) : iriOf declared (label ++ ':' :: name) =
      (spelling declared (String.ofList label)).map (· ++ String.ofList name) := by
  have labelled : readLabel ((label ++ [':']) ++ name) = some name := by
    rw [List.append_assoc]
    exact readPrefix good name
  have taken : cut readLabel (label ++ ':' :: name) = some (label ++ [':'],name) := by
    simpa using cutOf labelled
  rw [iriOf,readIriShort good,taken]
  cases found : spelling declared (String.ofList label) <;> simp [found]

theorem readDeclarationOf {label : List Char} (good : IsPrefix label) {iri : List Char}
    (chars : ∀ c ∈ iri, isIriChar c = true) :
    readDeclaration ("PREFIX ".toList ++ (label ++ (": <".toList ++ (iri ++ ['>'])))) =
      some ⟨String.ofList label,String.ofList iri⟩ := by
  have keyword : readKeyword .PREFIX (skip ("PREFIX ".toList ++ (label ++ (": <".toList ++ (iri ++ ['>']))))) =
      some (' ' :: (label ++ ':' :: (' ' :: ('<' :: (iri ++ ['>']))))) := rfl
  have opened : skip (' ' :: (label ++ ':' :: (' ' :: ('<' :: (iri ++ ['>']))))) =
      (label ++ [':']) ++ (' ' :: ('<' :: (iri ++ ['>']))) := by
    obtain ⟨c,rest,opens,visible,_⟩ := prefixOpens good (' ' :: ('<' :: (iri ++ ['>'])))
    rw [List.append_assoc,List.singleton_append,opens]
    exact skipVisible visible rest
  have labelled : cut readLabel ((label ++ [':']) ++ (' ' :: ('<' :: (iri ++ ['>'])))) =
      some (label ++ [':'],' ' :: ('<' :: (iri ++ ['>']))) :=
    cutOf (by rw [List.append_assoc]; exact readPrefix good _)
  have whole : cut readIri (skip (' ' :: ('<' :: (iri ++ ['>'])))) = some ('<' :: (iri ++ ['>']),[]) := by
    have read := readIriChars chars []
    have visible : skip (' ' :: ('<' :: (iri ++ ['>']))) = ('<' :: (iri ++ ['>'])) ++ [] := by
      rw [List.append_nil]
      exact skipVisible (c := '<') ⟨by decide,by decide⟩ _
    rw [visible]
    exact cutOf (by simpa using read)
  rw [readDeclaration,keyword]
  simp only [bind,Option.bind_some,opened,labelled,whole]
  simp [skip,skipFrom,bracketed]

end PathQuery.Grammar
