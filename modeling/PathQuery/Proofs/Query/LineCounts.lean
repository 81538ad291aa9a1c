import Mathlib.Algebra.GroupWithZero.Nat
import PathQuery.Proofs.Query.Characters
import PathQuery.Query.Reading

/-! The triple lines that are counted in a text. Lines that are joined count each on their own, and of the lines of a
pattern one for a triple, and none for anything else but a comment that has a break in it. -/
namespace PathQuery
open Query Text

theorem countedBreak (s rest : List Char) :
    tripleLineCount (s ++ '\n' :: rest) = tripleLineCount s + tripleLineCount rest := by
  have closed : (splitLines (s ++ ['\n'])).countP isTripleLine = (splitLines s).countP isTripleLine := by
    rcases splitClosed s with same | more
    · rw [same]
    · rw [more,List.countP_append]
      rfl
  rw [tripleLineCount,splitEnded,List.countP_append,closed]
  rfl

theorem countedJoined (lines : List (List Char)) :
    tripleLineCount (joinLines lines) = (lines.map tripleLineCount).sum := by
  fun_induction joinLines lines with
  | case1 => rfl
  | case2 line => simp
  | case3 line next lines ih => rw [countedBreak,ih]; rfl

theorem countedLine {line : List Char} (whole : Unbroken line) :
    tripleLineCount line = if isTripleLine line then 1 else 0 := by
  by_cases empty : line = []
  · subst empty
    rfl
  · rw [tripleLineCount,splitLinesOfPlain whole empty,List.countP_singleton]

theorem marginUnbroken {margin : List Char} (spaces : ∀ c ∈ margin, c = ' ') : Unbroken margin :=
  sparesSpaces breakForeign spaces

def EndsPlainly (line : List Char) : Prop := ∃ c ∈ line.getLast?, isBlank c = false ∧ c ≠ '.'

instance (line : List Char) : Decidable (EndsPlainly line) :=
  decidable_of_iff (line.getLast?.any (fun c => !isBlank c && c != '.') = true)
    (by simp [EndsPlainly,Option.any_eq_true])

theorem wordEnds {word : List Char} (named : IsWord word) : EndsPlainly word := by
  have own := named.2 _ (List.getLast_mem named.1)
  exact ⟨_,List.getLast?_eq_some_getLast named.1,wordCharVisible own,fun same => absurd (same ▸ own) (by decide)⟩

theorem endsBehind {ending : List Char} (ends : EndsPlainly ending) (front : List Char) :
    EndsPlainly (front ++ ending) := by
  obtain ⟨c,last,plain⟩ := ends
  exact ⟨c,by rw [List.getLast?_append,Option.mem_def.mp last]; rfl,plain⟩

theorem endingQuiet {line : List Char} (whole : Unbroken line) (ends : EndsPlainly line) :
    tripleLineCount line = 0 := by
  obtain ⟨c,last,visible,other⟩ := ends
  obtain ⟨front,rfl⟩ := List.getLast?_eq_some_iff.mp last
  have quiet : isTripleLine (front ++ [c]) = false := by
    simp [isTripleLine,trimEndOfVisible visible,startsWith,List.isPrefixOf,other.symm]
  rw [countedLine whole,quiet]
  rfl

theorem spacedQuiet {margin ending : List Char} (spaces : ∀ c ∈ margin, c = ' ') (whole : Unbroken ending)
    (ends : EndsPlainly ending) : tripleLineCount (margin ++ ending) = 0 :=
  endingQuiet (unbrokenAppend (marginUnbroken spaces) whole) (endsBehind ends margin)

theorem trimMargin {margin : List Char} (spaces : ∀ c ∈ margin, c = ' ') {c : Char} (visible : isBlank c = false)
    (rest : List Char) : trimStart (margin ++ c :: rest) = c :: rest :=
  dropWhileRun (fun d member => by rw [spaces d member]; decide) (by rintro d ⟨⟩; exact visible)

theorem commentBelow {margin : List Char} (spaces : ∀ c ∈ margin, c = ' ') (note : List Char) :
    tripleLineCount (margin ++ '#' :: note) = (splitLines note).tail.countP isTripleLine := by
  have opens : ∀ rest, isTripleLine (margin ++ '#' :: rest) = false := by
    intro rest
    have start : trimStart (margin ++ '#' :: rest) = '#' :: rest := trimMargin spaces (by decide) rest
    simp [isTripleLine,start,startsWith,List.isPrefixOf]
  have whole : Unbroken (margin ++ ['#']) := unbrokenAppend (marginUnbroken spaces) (by decide)
  have front := splitFront whole (by simp) note
  rw [List.append_assoc,List.append_assoc,List.singleton_append,List.singleton_append] at front
  rw [tripleLineCount,front,List.countP_cons_of_neg (by simp [opens])]

theorem commentIndented {margin note : List Char} (spaces : ∀ c ∈ margin, c = ' ') (opens : note.head? = some '#') :
    tripleLineCount (margin ++ note) = tripleLineCount note := by
  obtain ⟨text,rfl⟩ := List.head?_eq_some_iff.mp opens
  rw [commentBelow spaces,show '#' :: text = [] ++ '#' :: text from rfl,commentBelow (List.forall_mem_nil _)]

theorem commentQuiet {note : List Char} (opens : note.head? = some '#') (whole : Unbroken note) :
    tripleLineCount note = 0 := by
  obtain ⟨text,rfl⟩ := List.head?_eq_some_iff.mp opens
  have quiet : isTripleLine ('#' :: text) = false := by
    simp [isTripleLine,trimStart,startsWith,List.isPrefixOf,show isBlank '#' = false by decide]
  rw [countedLine whole,quiet]
  rfl

def Lined (text : String) : Prop := Unbroken text.toList

instance (text : String) : Decidable (Lined text) := inferInstanceAs (Decidable (Unbroken text.toList))

def NamespaceTable.Lined (namespaces : NamespaceTable) : Prop :=
  ∀ e ∈ namespaces.entries, PathQuery.Lined e.label ∧ PathQuery.Lined e.iri

instance (namespaces : NamespaceTable) : Decidable namespaces.Lined :=
  inferInstanceAs (Decidable (∀ e ∈ namespaces.entries, PathQuery.Lined e.label ∧ PathQuery.Lined e.iri))

variable {namespaces : NamespaceTable}

theorem tripleUnbroken (lined : namespaces.Lined) {t : Triple} (formed : t.Formed Lined) :
    Unbroken (t.text namespaces) := sparesTriple breakForeign lined formed

theorem tripleCounts (lined : namespaces.Lined) {margin : List Char} (spaces : ∀ c ∈ margin, c = ' ') {t : Triple}
    (formed : t.Formed Lined) : tripleLineCount (margin ++ t.text namespaces) = 1 := by
  obtain ⟨rest,text⟩ := anchoredOpens namespaces (formedAnchored formed)
  have whole : Unbroken (margin ++ t.text namespaces) :=
    unbrokenAppend (marginUnbroken spaces) (tripleUnbroken lined formed)
  have start : trimStart (margin ++ t.text namespaces) = t.text namespaces := by
    rw [text]
    exact trimMargin spaces (by decide) _
  obtain ⟨front,last⟩ : ∃ front, margin ++ t.text namespaces = front ++ [' '] ++ ['.'] :=
    ⟨margin ++ (t.subject.text namespaces ++ ' ' :: t.predicate.text namespaces ++ ' ' :: t.object.text namespaces),
      by simp [Triple.text]⟩
  have counts : isTripleLine (margin ++ t.text namespaces) = true := by
    rw [isTripleLine,start,last,trimEndOfVisible (by decide),text]
    simp [startsWith,List.isPrefixOf]
  rw [countedLine whole,counts]
  rfl

def Line.Tidy : Line → Prop
  | .note _ text => text.toList.head? = some '#'
  | .marker text => text.toList.head? = some '#'
  | .triple _ t => t.Formed Lined
  | _ => True

def Line.counted : Line → Nat
  | .note _ text => tripleLineCount text.toList
  | .marker text => tripleLineCount text.toList
  | .triple _ _ => 1
  | _ => 0

def Line.remark? : Line → Option String
  | .note _ text => some text
  | .marker text => some text
  | _ => none

def remarks (lines : List Line) : List String := lines.filterMap Line.remark?

def countedIn (texts : List String) : Nat := (texts.map fun text => tripleLineCount text.toList).sum

theorem countedSum (lines : List Line) :
    (lines.map Line.counted).sum = (writtenTriples lines).length + countedIn (remarks lines) := by
  unfold writtenTriples remarks countedIn
  induction lines with
  | nil => rfl
  | cons line rest ih =>
      rw [List.map_cons,List.sum_cons,ih,List.filterMap_cons,List.filterMap_cons]
      cases line with
      | triple depth t =>
          simp only [Line.counted,Line.triple?,Line.remark?,List.length_cons]
          omega
      | note depth text => simp [Line.counted,Line.triple?,Line.remark?,Nat.add_left_comm]
      | marker text => simp [Line.counted,Line.triple?,Line.remark?,Nat.add_left_comm]
      | blank => simp [Line.counted,Line.triple?,Line.remark?]
      | opening scope => simp [Line.counted,Line.triple?,Line.remark?]
      | closing scope => simp [Line.counted,Line.triple?,Line.remark?]

theorem appendSpaces {margin : List Char} (spaces : ∀ c ∈ margin, c = ' ') (depth : Int) :
    ∀ c ∈ margin ++ indent depth, c = ' ' := by
  intro c member
  rcases List.mem_append.mp member with member | member
  · exact spaces c member
  · exact (List.mem_replicate.mp member).2

structure Indents (layout : List Char → List Char) (margin : List Char) : Prop where
  spaces : ∀ c ∈ margin, c = ' '
  blank : layout [] = []
  shown : ∀ {line : List Char} {c : Char}, c ∈ line → isBlank c = false → layout line = margin ++ line

theorem indentsSame : Indents id [] := ⟨List.forall_mem_nil _,rfl,fun _ _ => rfl⟩

theorem indentsBy {margin : List Char} (spaces : ∀ c ∈ margin, c = ' ') : Indents (indented margin) margin :=
  ⟨spaces,rfl,fun there shown => indentedVisible there shown margin⟩

inductive Line.Code (namespaces : NamespaceTable) : Line → List Char → Prop where
  | note (depth : Int) (text : String) : Code namespaces (.note depth text) text.toList
  | marker (text : String) : Code namespaces (.marker text) text.toList
  | opening (scope : Scope) : Code namespaces (.opening scope) "OPTIONAL \x7b".toList
  | closing (scope : Scope) : Code namespaces (.closing scope) ['\x7d']
  | triple (depth : Int) (t : Triple) : Code namespaces (.triple depth t) (t.text namespaces)

def Line.Telling : Line → Prop
  | .note _ text => text.toList.head? = some '#'
  | .marker text => text.toList.head? = some '#'
  | .triple _ t => t.Anchored
  | _ => True

theorem tidyTells {line : Line} (tidy : line.Tidy) : line.Telling := by
  cases line with
  | triple depth t => exact formedAnchored tidy
  | _ => exact tidy

theorem lineLaid (namespaces : NamespaceTable) {layout : List Char → List Char} {margin : List Char}
    (indents : Indents layout margin) {line : Line} (telling : line.Telling) :
    line = .blank ∧ layout (line.text namespaces) = [] ∨ ∃ gap code, (∀ c ∈ gap, c = ' ') ∧
      layout (line.text namespaces) = gap ++ code ∧ line.Code namespaces code := by
  have spaces := appendSpaces indents.spaces
  have laid : ∀ {depth : Int} {code : List Char} {c : Char}, c ∈ code → isBlank c = false →
      layout (indent depth ++ code) = margin ++ indent depth ++ code := fun member visible => by
    rw [indents.shown (List.mem_append_right _ member) visible,← List.append_assoc]
  cases line with
  | blank => exact .inl ⟨rfl,indents.blank⟩
  | note depth text => exact .inr ⟨_,_,spaces depth,laid (List.mem_of_head? telling) (by decide),.note depth text⟩
  | marker text =>
      exact .inr ⟨_,_,indents.spaces,indents.shown (List.mem_of_head? telling) (by decide),.marker text⟩
  | opening scope =>
      have brace : '\x7b' ∈ "OPTIONAL \x7b".toList := by decide
      exact .inr ⟨_,_,spaces scope.depth,laid brace (by decide),.opening scope⟩
  | closing scope =>
      exact .inr ⟨_,_,spaces scope.depth,laid (List.mem_singleton_self _) (by decide),.closing scope⟩
  | triple depth t =>
      obtain ⟨rest,text⟩ := anchoredOpens namespaces telling
      have mark : '?' ∈ t.text namespaces := by simp [text]
      exact .inr ⟨_,_,spaces depth,laid mark (by decide),.triple depth t⟩

theorem lineCounts (lined : namespaces.Lined) {layout : List Char → List Char} {margin : List Char}
    (indents : Indents layout margin) {line : Line} (tidy : line.Tidy) :
    tripleLineCount (layout (line.text namespaces)) = line.counted := by
  rcases lineLaid namespaces indents (tidyTells tidy) with ⟨rfl,laid⟩ | ⟨gap,code,spaces,laid,reads⟩
  · rw [laid]
    rfl
  · rw [laid]
    cases reads with
    | note depth text => exact commentIndented spaces tidy
    | marker text => exact commentIndented spaces tidy
    | opening scope => exact spacedQuiet spaces (by decide) (by decide)
    | closing scope => exact spacedQuiet spaces (by decide) (by decide)
    | triple depth t => exact tripleCounts lined spaces tidy

theorem linesCount (lined : namespaces.Lined) {layout : List Char → List Char} {margin : List Char}
    (indents : Indents layout margin) {lines : List Line} (tidy : ∀ line ∈ lines, line.Tidy) :
    (((lines.map (Line.text namespaces)).map layout).map tripleLineCount).sum =
      (writtenTriples lines).length + countedIn (remarks lines) := by
  rw [← countedSum,List.map_map,List.map_map]
  exact congrArg List.sum (List.map_congr_left fun line member => lineCounts lined indents (tidy line member))

end PathQuery
