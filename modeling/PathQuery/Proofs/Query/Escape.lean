import PathQuery.Proofs.Query.Characters

/-! Nothing in a query is escaped: no line of it has a backslash. -/
namespace PathQuery
open Grammar

def Unescaped (s : List Char) : Prop := '\\' ∉ s

instance (s : List Char) : Decidable (Unescaped s) := by unfold Unescaped; infer_instance

theorem unescapedAppend {a b : List Char} (first : Unescaped a) (second : Unescaped b) :
    Unescaped (a ++ b) := by
  intro member
  rcases List.mem_append.mp member with member | member
  · exact first member
  · exact second member

theorem unescapedCons {c : Char} {s : List Char} (other : c ≠ '\\') (rest : Unescaped s) :
    Unescaped (c :: s) := by
  intro member
  rcases List.mem_cons.mp member with same | member
  · exact other same.symm
  · exact rest member

theorem unescapedAll {test : Char → Bool} (other : test '\\' = false) {s : List Char}
    (all : ∀ c ∈ s, test c = true) : Unescaped s := by
  intro member
  have := all _ member
  simp [other] at this

def isBackslash (c : Char) : Bool := c == '\\'

theorem backslashForeign : IsForeign isBackslash where
  word := by
    intro c word
    refine Bool.eq_false_iff.mpr fun same => ?_
    obtain rfl : c = '\\' := by simpa [isBackslash] using same
    exact absurd word (by decide)
  mark := by decide

theorem unescapedOf {s : List Char} (spares : Spares isBackslash s) : Unescaped s :=
  fun member => absurd (spares _ member) (by decide)

theorem unescapedWord {s : List Char} (word : IsWord s) : Unescaped s := wordLacks word (by decide)

theorem unescapedIri {s : String} (chars : IriText s) : Unescaped s.toList := unescapedAll (by decide) chars

theorem unescapedSpaces {s : List Char} (spaces : ∀ c ∈ s, isSpace c = true) : Unescaped s :=
  unescapedAll (by decide) spaces

theorem unescapedLabel {label : List Char} (good : IsLabel label) : Unescaped label := by
  obtain ⟨c,rest,rfl,letter,inside,_⟩ := good
  refine unescapedCons ?_ (unescapedAll (by decide) inside)
  rintro rfl
  exact absurd letter (by decide)

theorem unescapedName {text : List Char} (name : NameText text) : Unescaped text := by
  cases name with
  | full chars => exact unescapedAppend (unescapedCons (by decide) (unescapedAll (by decide) chars)) (by decide)
  | short good plain =>
      simp only [NamespaceTable.isPlainLocal,Bool.and_eq_true,List.all_eq_true] at plain
      exact unescapedAppend (unescapedLabel good) (unescapedCons (by decide) (unescapedAll (by decide) plain.2))

theorem unescapedVerb {text : List Char} (verb : VerbText text) : Unescaped text := by
  cases verb with
  | kind => decide
  | name h => exact unescapedName h

theorem unescapedObject {text : List Char} (object : ObjectText text) : Unescaped text := by
  cases object with
  | var word => exact unescapedCons (by decide) (unescapedWord word)
  | name h => exact unescapedName h

theorem unescapedNote {text : List Char} (note : NoteText text) : Unescaped text := by
  obtain ⟨rest,rfl,_,plain⟩ := note
  exact unescapedCons (by decide) plain

theorem unescapedLine {line : Line} (plain : line.Plain) : Unescaped (line.text .standard) := by
  cases line with
  | blank => decide
  | note depth text => exact unescapedAppend (unescapedSpaces (indentSpaces depth)) (unescapedNote plain)
  | marker text => exact unescapedNote plain
  | opening scope => exact unescapedAppend (unescapedSpaces (indentSpaces scope.depth)) (by decide)
  | closing scope => exact unescapedAppend (unescapedSpaces (indentSpaces scope.depth)) (by decide)
  | triple depth t =>
      obtain ⟨name,verb,object,word,verbText,objectText,parts⟩ := tripleParts plain
      rw [Line.text,parts]
      refine unescapedAppend (unescapedSpaces (indentSpaces depth)) ?_
      refine unescapedAppend (unescapedCons (by decide) (unescapedWord word)) (unescapedCons (by decide) ?_)
      exact unescapedAppend (unescapedVerb verbText)
        (unescapedCons (by decide) (unescapedAppend (unescapedObject objectText) (by decide)))

def Clear (lines : List (List Char)) : Prop := ∀ line ∈ lines, Unescaped line

theorem clearNil : Clear [] := fun _ member => nomatch member

theorem clearCons {line : List Char} {lines : List (List Char)} (first : Unescaped line) (rest : Clear lines) :
    Clear (line :: lines) := by
  intro other member
  rcases List.mem_cons.mp member with rfl | member
  · exact first
  · exact rest other member

theorem clearAppend {first second : List (List Char)} (a : Clear first) (b : Clear second) :
    Clear (first ++ second) := by
  intro line member
  rcases List.mem_append.mp member with member | member
  · exact a line member
  · exact b line member

theorem clearMap {α : Type} {write : α → List Char} {items : List α}
    (each : ∀ a ∈ items, Unescaped (write a)) : Clear (items.map write) := by
  intro line member
  obtain ⟨a,there,rfl⟩ := List.mem_map.mp member
  exact each a there

theorem unescapedJoin {lines : List (List Char)} (clear : Clear lines) : Unescaped (Text.joinLines lines) := by
  cases lines with
  | nil => decide
  | cons line rest =>
      rw [joinLinesBelow]
      refine unescapedAppend (clear line (by simp)) ?_
      intro member
      obtain ⟨other,there,inside⟩ := List.mem_flatMap.mp member
      exact unescapedCons (by decide) (clear other (List.mem_cons_of_mem _ there)) inside

theorem clearSubSelect {b : CountBlock} (plain : b.Plain) {margin inner : List Char}
    (spaces : ∀ c ∈ margin, isSpace c = true) (more : ∀ c ∈ inner, isSpace c = true) :
    Clear (subSelectLines margin inner b) := by
  have edge := unescapedSpaces spaces
  have select : Unescaped b.select :=
    unescapedOf (sparesSelect backslashForeign plain.parent plain.counted plain.raw)
  have body : ∀ line ∈ b.body, Unescaped (indented margin (line.text .standard)) := by
    intro line member
    obtain ⟨front,blanks,laid⟩ := laysIndented spaces line (plain.lines line member)
    rw [laid]
    exact unescapedAppend (unescapedSpaces blanks) (unescapedLine (plain.lines line member))
  have group : Clear (b.parent.map fun p =>
      (margin ++ "  ".toList) ++ ("GROUP BY ?".toList ++ p.toList)).toList := by
    cases given : b.parent with
    | none => exact clearNil
    | some p =>
        exact clearCons (unescapedAppend (unescapedAppend edge (by decide))
          (unescapedAppend (by decide) (unescapedWord (plain.parent p given)))) clearNil
  refine clearAppend (clearCons (unescapedAppend edge (by decide))
    (clearCons (unescapedAppend (unescapedSpaces more) select)
      (clearCons (unescapedAppend edge (by decide)) (clearMap body)))) ?_
  exact clearAppend (clearCons (unescapedAppend edge (by decide)) group)
    (clearCons (unescapedAppend edge (by decide)) clearNil)

theorem clearBlock {b : CountBlock} (plain : b.Plain) : Clear (b.lines .standard) := by
  have two := unescapedSpaces (spacesMargin 2)
  rw [blockLinesParts plain]
  refine clearAppend ?_ ?_
  · cases given : b.comment with
    | none => exact clearNil
    | some text => exact clearCons (unescapedAppend two (unescapedNote (plain.comment text given))) clearNil
  · split
    · exact clearAppend (clearCons (unescapedAppend two (by decide))
        (clearSubSelect plain (spacesMargin 4) (spacesMargin 4)))
        (clearCons (unescapedAppend two (by decide)) clearNil)
    · exact clearSubSelect plain (spacesMargin 2) (spacesMargin 4)

theorem clearColumns {columns : List Projection} (plain : ∀ p ∈ columns, p.Plain) :
    Clear (Pattern.selectLines columns) := fun line member =>
  unescapedOf (sparesColumns backslashForeign plain line member)

theorem clearEnd {o : QueryOptions} (word : ∀ name ∈ o.orderVariable, IsWord name.toList) : Clear o.endLines :=
  fun line member => unescapedOf (sparesEnd backslashForeign word line member)

theorem clearDeclarations (used : List String) :
    Clear ((NamespaceTable.standard.declarations used).map (·.toList)) := by
  refine clearMap fun text member => ?_
  obtain ⟨e,there,rfl⟩ := List.mem_map.mp member
  have entry := (List.mem_filter.mp there).1
  have spares : ∀ {s : List Char}, Unescaped s → Spares isBackslash s := fun plain c inside =>
    beq_eq_false_iff_ne.mpr fun same => plain (same ▸ inside)
  exact unescapedOf (sparesDeclaration backslashForeign (spares (unescapedLabel (standardLabels e entry)))
    (spares (unescapedIri (standardIris e entry))))

end PathQuery
