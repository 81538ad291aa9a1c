import PathQuery.Proofs.Grammar.Group
import PathQuery.Proofs.Pattern.Naming
import PathQuery.Proofs.Query.Scope
import PathQuery.Query.Text

/-! Lines as the grammar reads them: each line of a pattern whose IRIs and comments can be written leads
from one number of open scopes to another. -/
namespace PathQuery
open Grammar

def IriText (s : String) : Prop := ∀ c ∈ s.toList, isIriChar c = true

instance (s : String) : Decidable (IriText s) :=
  decidable_of_iff (s.toList.all isIriChar = true) List.all_eq_true

theorem standardLabels : ∀ e ∈ NamespaceTable.standard.entries, IsLabel e.label.toList := by
  have label : ∀ {c rest}, isLetter c = true → rest.all (fun d => isNameChar d || d == '.') = true →
      rest.getLast? ≠ some '.' → IsLabel (c :: rest) := fun letter inside last =>
    ⟨_,_,rfl,letter,List.all_eq_true.mp inside,last⟩
  intro e member
  simp only [NamespaceTable.standard,List.mem_cons,List.not_mem_nil,or_false] at member
  rcases member with rfl | rfl | rfl | rfl | rfl | rfl | rfl | rfl | rfl | rfl <;>
    exact label (by decide) (by decide) (by decide)

theorem standardIris : ∀ e ∈ NamespaceTable.standard.entries, IriText e.iri := by
  have decided : NamespaceTable.standard.entries.all (fun e => e.iri.toList.all isIriChar) = true := by
    decide +kernel
  intro e member
  exact List.all_eq_true.mp (List.all_eq_true.mp decided e member)

theorem localPlain {name : List Char} (own : NamespaceTable.isLocal name = true) (line : '\n' ∉ name) :
    NamespaceTable.isPlainLocal name = true := by
  unfold NamespaceTable.isLocal at own
  rcases Bool.or_eq_true_iff.mp own with plain | broken
  · exact plain
  · have last : name.getLast? = some '\n' := by simpa using (Bool.and_eq_true_iff.mp broken).1
    exact absurd (List.mem_of_getLast? last) line

theorem compactName {iri : String} (chars : IriText iri) (other : iri ≠ rdfType) :
    NameText (NamespaceTable.standard.compact iri).toList := by
  unfold NamespaceTable.compact
  rw [if_neg other]
  split
  · next label name found =>
    obtain ⟨e,member,rfl,rfl,own⟩ := NamespaceTable.matchSpells found
    have line : '\n' ∉ name.toList := by
      intro there
      have := chars '\n' (by simp [there])
      exact absurd this (by decide)
    simpa using NameText.short (standardLabels e member) (localPlain own line)
  · simpa using NameText.full chars

theorem compactVerb {iri : String} (chars : IriText iri) :
    VerbText (NamespaceTable.standard.compact iri).toList := by
  by_cases type : iri = rdfType
  · rw [NamespaceTable.compact,if_pos type]
    exact .kind
  · exact .name (compactName chars type)

inductive PlainTriple : Triple → Prop where
  | kind {name iri : String} (word : IsWord name.toList) (chars : IriText iri) (other : iri ≠ rdfType) :
      PlainTriple (typeTriple name iri)
  | link {source iri target : String} (start : IsWord source.toList) (chars : IriText iri)
      (stop : IsWord target.toList) : PlainTriple ⟨.var source,.iri iri,.var target⟩

theorem plainLink {source token target : String} (start : IsWord source.toList)
    (chars : IriText (classIri token)) (stop : IsWord target.toList) :
    PlainTriple (linkTriple source token target) := by
  unfold linkTriple
  unfold classIri at chars
  split
  next iri inverse split_ =>
    rw [split_] at chars
    split
    · exact .link stop chars start
    · exact .link start chars stop

theorem variableNameWord {name : String} (word : IsWord name.toList) : variableName name = name := by
  unfold variableName
  split
  · next opening =>
    exact absurd (opening ▸ List.mem_cons_self) (wordLacks word (by decide))
  · rfl

theorem renameWord {names : Renaming} (words : names.Words) {name : String} (word : IsWord name.toList) :
    ∃ other : String, IsWord other.toList ∧ (Term.var name).rename names = .var other := by
  unfold Term.rename
  cases found : names.find? name with
  | none => exact ⟨name,word,by simp [found]⟩
  | some other =>
      have kept := Table.wordsFind words found
      exact ⟨other,kept,by simp [found,variableNameWord kept]⟩

theorem plainRename {names : Renaming} (words : names.Words) {t : Triple} (plain : PlainTriple t) :
    PlainTriple (t.rename names) := by
  cases plain with
  | kind word chars other =>
      obtain ⟨name,renamed,same⟩ := renameWord words word
      rw [Triple.rename,typeTriple,same]
      exact .kind renamed chars other
  | link start chars stop =>
      obtain ⟨source,first,same⟩ := renameWord words start
      obtain ⟨target,last,alike⟩ := renameWord words stop
      rw [Triple.rename,same,alike]
      exact .link first chars last

theorem tripleParts {t : Triple} (plain : PlainTriple t) : ∃ name verb object,
    IsWord name ∧ VerbText verb ∧ ObjectText object ∧
      t.text .standard = '?' :: name ++ ' ' :: (verb ++ ' ' :: (object ++ [' ','.'])) := by
  cases plain with
  | kind word chars other =>
      refine ⟨_,_,_,word,VerbText.kind,.name (compactName chars other),?_⟩
      simp [Triple.text,typeTriple,Term.text,NamespaceTable.compact]
  | link start chars stop =>
      refine ⟨_,_,_,start,compactVerb chars,.var stop,?_⟩
      simp [Triple.text,Term.text]

def NoteText (text : List Char) : Prop := ∃ rest, text = '#' :: rest ∧ '\n' ∉ rest ∧ '\\' ∉ rest

def Line.Plain : Line → Prop
  | .note _ text => NoteText text.toList
  | .marker text => NoteText text.toList
  | .triple _ t => PlainTriple t
  | _ => True

theorem linePlainRename {names : Renaming} (words : names.Words) {line : Line} (plain : line.Plain) :
    (line.rename names).Plain := by
  cases line with
  | triple depth t => exact plainRename words plain
  | _ => exact plain

theorem indentSpaces (depth : Int) : ∀ c ∈ indent depth, isSpace c = true := by
  intro c member
  rw [(List.mem_replicate.mp member).2]
  rfl

theorem readyLine {line : Line} (plain : line.Plain) {n m : Nat} (step : line.openAfter n = some m)
    {goals : List Goal} {s : List Char} (done : AtLineEnd s) (ready : Ready (scopeGoals m goals) s) :
    Ready (scopeGoals n goals) (line.text .standard ++ s) := by
  cases line with
  | blank => cases step; exact ready
  | note depth text =>
      cases step
      obtain ⟨rest,opening,line,_⟩ := plain
      rw [Line.text,opening,List.append_assoc]
      exact readyMargin (indentSpaces depth) (readyComment line done ready)
  | marker text =>
      cases step
      obtain ⟨rest,opening,line,_⟩ := plain
      rw [Line.text,opening]
      exact readyComment line done ready
  | opening scope =>
      cases step
      rw [Line.text,List.append_assoc]
      exact readyMargin (indentSpaces scope.depth) (readyOptional ready)
  | closing scope =>
      cases n with
      | zero => contradiction
      | succ n =>
          cases step
          rw [Line.text,List.append_assoc]
          exact readyMargin (indentSpaces scope.depth) (readyScopeEnd ready)
  | triple depth t =>
      cases step
      obtain ⟨name,verb,object,word,verbText,objectText,parts⟩ := tripleParts plain
      have written : t.text .standard ++ s =
          '?' :: name ++ ' ' :: (verb ++ ' ' :: (object ++ ' ' :: '.' :: s)) := by simp [parts]
      rw [Line.text,List.append_assoc,written]
      exact readyMargin (indentSpaces depth) (readyTriple word verbText objectText ready)

def below (lines : List (List Char)) : List Char := lines.flatMap fun line => '\n' :: line

theorem belowCons (line : List Char) (lines : List (List Char)) :
    below (line :: lines) = '\n' :: line ++ below lines := rfl

theorem belowAppend (first second : List (List Char)) : below (first ++ second) = below first ++ below second :=
  List.flatMap_append

theorem joinLinesBelow (line : List Char) (lines : List (List Char)) :
    Text.joinLines (line :: lines) = line ++ below lines := by
  induction lines generalizing line with
  | nil => simp [Text.joinLines,below]
  | cons next rest ih => rw [Text.joinLines,ih next]; rfl

theorem belowAtLineEnd (lines : List (List Char)) {s : List Char} (done : AtLineEnd s) :
    AtLineEnd (below lines ++ s) := by
  cases lines with
  | nil => exact done
  | cons line rest =>
      intro c head
      cases head
      rfl

def Lays (layout : List Char → List Char) : Prop :=
  ∀ line : Line, line.Plain → ∃ margin, (∀ c ∈ margin, isSpace c = true) ∧
    layout (line.text .standard) = margin ++ line.text .standard

theorem laysSame : Lays id := fun _ _ => ⟨[],by simp,rfl⟩

theorem indentedVisible {line : List Char} {c : Char} (there : c ∈ line) (shown : Text.isBlank c = false)
    (margin : List Char) : indented margin line = margin ++ line := by
  have filled : isBlankLine line = false := by
    cases blank : isBlankLine line with
    | false => rfl
    | true =>
        rw [List.all_eq_true.mp blank c there] at shown
        contradiction
  simp [indented,filled]

theorem laysIndented {margin : List Char} (spaces : ∀ c ∈ margin, isSpace c = true) :
    Lays (indented margin) := by
  intro line plain
  cases line with
  | blank => exact ⟨[],by simp,rfl⟩
  | note depth text =>
      obtain ⟨rest,opening,_⟩ := plain
      exact ⟨margin,spaces,indentedVisible (c := '#') (by simp [Line.text,opening]) (by decide) _⟩
  | marker text =>
      obtain ⟨rest,opening,_⟩ := plain
      exact ⟨margin,spaces,indentedVisible (c := '#') (by simp [Line.text,opening]) (by decide) _⟩
  | opening scope => exact ⟨margin,spaces,indentedVisible (c := '\x7b') (by simp [Line.text]) (by decide) _⟩
  | closing scope => exact ⟨margin,spaces,indentedVisible (c := '\x7d') (by simp [Line.text]) (by decide) _⟩
  | triple depth t =>
      obtain ⟨name,verb,object,_,_,_,parts⟩ := tripleParts plain
      exact ⟨margin,spaces,indentedVisible (c := '?') (by simp [Line.text,parts]) (by decide) _⟩

theorem readyLines {layout : List Char → List Char} (lays : Lays layout) {lines : List Line}
    (plain : ∀ line ∈ lines, line.Plain) {n m : Nat} (steps : openAfter n lines = some m)
    {goals : List Goal} {s : List Char} (done : AtLineEnd s) (ready : Ready (scopeGoals m goals) s) :
    Ready (scopeGoals n goals) (below (lines.map fun line => layout (line.text .standard)) ++ s) := by
  induction lines generalizing n with
  | nil =>
      cases steps
      exact ready
  | cons line rest ih =>
      rw [openAfterCons] at steps
      obtain ⟨k,first,others⟩ := Option.bind_eq_some_iff.mp steps
      have later := ih (fun other member => plain other (List.mem_cons_of_mem _ member)) others
      obtain ⟨margin,spaces,laid⟩ := lays line (plain line (by simp))
      rw [List.map_cons,belowCons,laid,List.append_assoc,List.cons_append,List.append_assoc]
      exact readyBreak (readyMargin spaces
        (readyLine (plain line (by simp)) first (belowAtLineEnd _ done) later))

end PathQuery
