import PathQuery.Proofs.Count.Source
import PathQuery.Proofs.Pattern.Growth
import PathQuery.Proofs.Query.Scope

/-! The body of a count: it has the triples of the count's own pattern that the outer pattern lacks, with
the parent's variable renamed, and leaving out comments takes nothing else from it. -/
namespace PathQuery

def Triple.Anchored (t : Triple) : Prop := ∃ name, t.subject = .var name

theorem linkAnchored (source token target : String) : (linkTriple source token target).Anchored := by
  unfold linkTriple
  split
  split
  · exact ⟨target,rfl⟩
  · exact ⟨source,rfl⟩

theorem askedAnchored {g : SelectionGraph} {t : Triple} (asked : g.Asks t) : t.Anchored := by
  cases asked with
  | path node walk =>
      cases walk with
      | kind word member => exact ⟨_,rfl⟩
      | link start stop member => exact linkAnchored _ _ _
  | bridge edge bridged start stop => exact linkAnchored _ _ _

theorem renameAnchored {t : Triple} (anchored : t.Anchored) (names : Renaming) : (t.rename names).Anchored := by
  obtain ⟨name,subject⟩ := anchored
  change ∃ name, t.subject.rename names = .var name
  rw [subject]
  unfold Term.rename
  cases found : names.find? name with
  | none => exact ⟨name,by simp [found]⟩
  | some other => exact ⟨variableName other,by simp [found]⟩

theorem trimStarts {margin : List Char} {c : Char} (blanks : ∀ d ∈ margin, Text.isBlank d = true)
    (visible : Text.isBlank c = false) (rest : List Char) :
    ∃ kept, Text.trim (margin ++ c :: rest) = c :: kept := by
  have start : Text.trimStart (margin ++ c :: rest) = c :: rest := by
    rw [Text.trimStart,List.dropWhile_append_of_pos blanks]
    simp [visible]
  rw [Text.trim,start,Text.trimEnd]
  cases Text.trimEnd rest with
  | nil => exact ⟨[],by simp [visible]⟩
  | cons d more => exact ⟨d :: more,rfl⟩

theorem indentBlank (depth : Int) : ∀ c ∈ indent depth, Text.isBlank c = true := by
  intro c member
  rw [(List.mem_replicate.mp member).2]
  decide

theorem anchoredOpens (namespaces : NamespaceTable) {t : Triple} (anchored : t.Anchored) :
    ∃ rest, t.text namespaces = '?' :: rest := by
  obtain ⟨name,subject⟩ := anchored
  refine ⟨name.toList ++ ' ' :: t.predicate.text namespaces ++ ' ' :: t.object.text namespaces ++ [' ','.'],?_⟩
  simp [Triple.text,subject,Term.text]

theorem solidOpens (namespaces : NamespaceTable) {line : Line} (solid : line.isSolid = true)
    (anchored : ∀ t ∈ line.triple?, t.Anchored) :
    ∃ margin c rest, line.text namespaces = margin ++ c :: rest ∧
      (∀ d ∈ margin, Text.isBlank d = true) ∧ Text.isBlank c = false ∧ c ≠ '#' := by
  cases line with
  | opening scope => exact ⟨indent scope.depth,'O',_,rfl,indentBlank _,by decide,by decide⟩
  | closing scope => exact ⟨indent scope.depth,'\x7d',_,rfl,indentBlank _,by decide,by decide⟩
  | triple depth t =>
      obtain ⟨rest,text⟩ := anchoredOpens namespaces (anchored t rfl)
      exact ⟨indent depth,'?',rest,congrArg (indent depth ++ ·) text,indentBlank _,by decide,by decide⟩
  | blank => contradiction
  | note depth text => contradiction
  | marker text => contradiction

def AreNotes (comments : List (List Char)) : Prop := ∀ comment ∈ comments, comment.head? = some '#'

theorem droppedAreNotes (g : SelectionGraph) (parent : Option String) (id : String) :
    AreNotes (g.droppedComments parent id) := by
  unfold SelectionGraph.droppedComments
  cases parent.bind g.nameOf with
  | none => exact fun _ member => nomatch member
  | some name =>
      intro comment member
      obtain ⟨arrow,_,rfl⟩ := List.mem_map.mp member
      simp [transitionComment]

theorem solidShows (namespaces : NamespaceTable) {line : Line} (solid : line.isSolid = true)
    (anchored : ∀ t ∈ line.triple?, t.Anchored) : isBlankLine (line.text namespaces) = false := by
  obtain ⟨margin,c,rest,text,_,visible,_⟩ := solidOpens namespaces solid anchored
  cases blank : isBlankLine (line.text namespaces) with
  | false => rfl
  | true =>
      rw [text] at blank
      have := List.all_eq_true.mp blank c (by simp)
      rw [visible] at this
      contradiction

theorem keptSolid (namespaces : NamespaceTable) {comments : List (List Char)} (notes : AreNotes comments)
    {lines : List Line} (anchored : ∀ t ∈ writtenTriples lines, t.Anchored) :
    (withoutComments (Line.text namespaces) comments lines).filter Line.isSolid =
      lines.filter Line.isSolid := by
  refine withoutCommentsKeeps fun line member solid => ?_
  have own : ∀ t ∈ line.triple?, t.Anchored :=
    fun t there => anchored t (List.mem_filterMap.mpr ⟨line,member,there⟩)
  refine ⟨?_,solidShows namespaces solid own⟩
  obtain ⟨margin,c,rest,text,blanks,visible,other⟩ := solidOpens namespaces solid own
  obtain ⟨kept,trimmed⟩ := trimStarts blanks visible rest
  cases there : comments.contains (Text.trim (line.text namespaces)) with
  | false => rfl
  | true =>
      have opening := notes _ (List.contains_iff_mem.mp there)
      rw [text,trimmed] at opening
      exact absurd (Option.some.inj opening) other

namespace SelectionGraph

def missing (outer sub : SelectPattern) (names : Renaming) : List Triple :=
  sub.records.keys.filter fun t => !outer.records.contains (t.rename names)

end SelectionGraph

variable {g : SelectionGraph} {sub : SelectPattern}

theorem parentVariableWord {p : SelectPattern} (words : p.selected.Words) {parent : Option String}
    {name : String} (found : SelectionGraph.parentVariable p parent = some name) : IsWord name.toList := by
  obtain ⟨id,_,there⟩ := Option.bind_eq_some_iff.mp found
  exact Table.wordsFind words there

theorem memCovered {outer : SelectPattern} {names : Renaming} {t : Triple} :
    t ∈ SelectionGraph.covered outer sub names ↔
      t ∈ sub.records.keys ∧ outer.records.contains (t.rename names) = true := List.mem_filter

theorem memMissing {outer : SelectPattern} {names : Renaming} {t : Triple} :
    t ∈ SelectionGraph.missing outer sub names ↔
      t ∈ sub.records.keys ∧ outer.records.contains (t.rename names) = false := by
  simp [SelectionGraph.missing]

theorem writtenUnmarked (sourced : sub.toPattern.Sourced g) (outer : SelectPattern) (names : Renaming)
    (t : Triple) : t ∈ writtenTriples (sub.toPattern.unmarked.lines (SelectionGraph.covered outer sub names)) ↔
      t ∈ SelectionGraph.missing outer sub names := by
  rw [Pattern.writtenLines,memCovered,memMissing]
  change _ ∧ sub.records.contains t = true ∧ (∃ e ∈ sub.emissions, e.triple = t) ↔ _
  rw [← sourced.recorded t,and_self]
  constructor
  · intro ⟨uncovered,recorded⟩
    have there := Table.containsIff.mp recorded
    exact ⟨there,Bool.eq_false_iff.mpr fun covered => uncovered ⟨there,covered⟩⟩
  · intro ⟨there,lacked⟩
    exact ⟨fun covered => Bool.eq_false_iff.mp lacked covered.2,Table.containsIff.mpr there⟩

theorem bodyAnchored (sourced : sub.toPattern.Sourced g) (outer : SelectPattern) (names : Renaming) :
    ∀ t ∈ writtenTriples ((sub.toPattern.unmarked.lines (SelectionGraph.covered outer sub names)).map
      (Line.rename names)), t.Anchored := by
  intro t member
  rw [writtenRename] at member
  obtain ⟨source,there,rfl⟩ := List.mem_map.mp member
  have recorded := (memMissing.mp ((writtenUnmarked sourced outer names source).mp there)).1
  obtain ⟨e,asked,rfl⟩ := (sourced.recorded source).mp (Table.containsIff.mpr recorded)
  exact renameAnchored (askedAnchored (sourced.asked e asked)) names

theorem writtenBody (namespaces : NamespaceTable) (outer : SelectPattern) (sourced : sub.toPattern.Sourced g)
    (names : Renaming) {comments : List (List Char)} (notes : AreNotes comments) (t : Triple) :
    t ∈ writtenTriples (SelectionGraph.countBody namespaces outer sub names comments) ↔
      ∃ source ∈ SelectionGraph.missing outer sub names, source.rename names = t := by
  rw [SelectionGraph.countBody,← writtenSolid,keptSolid namespaces notes (bodyAnchored sourced outer names),
    writtenSolid,writtenRename,List.mem_map]
  constructor
  · intro ⟨source,there,same⟩
    exact ⟨source,(writtenUnmarked sourced outer names source).mp there,same⟩
  · intro ⟨source,there,same⟩
    exact ⟨source,(writtenUnmarked sourced outer names source).mpr there,same⟩

theorem countBodyScopes (namespaces : NamespaceTable) (outer : SelectPattern)
    (sourced : sub.toPattern.Sourced g) (names : Renaming) {comments : List (List Char)}
    (notes : AreNotes comments) :
    openAfter 0 (SelectionGraph.countBody namespaces outer sub names comments) = some 0 := by
  rw [SelectionGraph.countBody,← openAfterSolid,keptSolid namespaces notes (bodyAnchored sourced outer names),
    openAfterSolid,openAfterRename]
  exact Pattern.openAfterLines _ _

end PathQuery
