import PathQuery.Proofs.Labels.Quiet
import PathQuery.Proofs.Query.Characters

/-! Queries without quotes. Where no IRI and no prefix has a quote or a backslash, none is in the code of a query, whatever
its comments say, so no string can go on through a comment. -/
namespace PathQuery
open Grammar Text

def isQuoting (c : Char) : Bool := ['\'','"','\\'].contains c

theorem quotingForeign : IsForeign isQuoting where
  word := by
    intro c word
    refine Bool.eq_false_iff.mpr fun quoting => ?_
    have listed : c ∈ ['\'','"','\\'] := List.contains_iff_mem.mp quoting
    simp only [List.mem_cons,List.not_mem_nil,or_false] at listed
    rcases listed with rfl | rfl | rfl <;> exact absurd word (by decide)
  mark := by decide

theorem codeSubset {s code : List Char} (member : code ∈ codeOf s) : code ⊆ s := by
  induction size : s.length using Nat.strongRecOn generalizing s with
  | ind n ih =>
    by_cases broken : '\n' ∈ s
    · obtain ⟨front,back,rfl,_⟩ := List.eq_append_cons_of_mem broken
      have lengths : front.length < n ∧ back.length < n := by
        simp only [← size,List.length_append,List.length_cons]
        omega
      rw [codeBreak] at member
      rcases List.mem_append.mp member with here | later
      · exact List.subset_append_of_subset_left _ (ih _ lengths.1 here rfl)
      · exact List.subset_append_of_subset_right _ (List.subset_cons_of_subset _ (ih _ lengths.2 later rfl))
    · rw [codeOf,List.splitOn_eq_singleton broken] at member
      exact List.mem_singleton.mp (List.mem_filter.mp member).1 ▸ List.Subset.refl _

theorem sparesUnquoted {s t : List Char} (same : (unescape s).map codeOf = (unescape t).map codeOf)
    (plain : Spares isQuoting t) : Unquoted s := by
  have whole : unescape t = .ok t := unescapeOfPlain fun member => absurd (plain _ member) (by decide)
  rintro text read code member ⟨quote,listed,opens⟩
  rw [read,whole] at same
  rw [show codeOf text = codeOf t from Except.ok.inj same] at member
  have inside : quote ∈ t := codeSubset member (opens.subset (by simp [List.replicate]))
  have quoting : isQuoting quote = true := by
    simp only [List.mem_cons,List.not_mem_nil,or_false] at listed
    rcases listed with rfl | rfl <;> decide
  exact absurd (plain quote inside) (by simp [quoting])

variable {g : SelectionGraph} {o : QueryOptions} {bad : Char → Bool}

theorem sparesQuery (foreign : IsForeign bad) (spares : o.namespaces.Spares bad)
    (word : ∀ name ∈ o.orderVariable, IsWord name.toList) (spelled : g.Spelled fun iri => Spares bad iri.toList)
    {parts : SelectPattern × Counts} (made : g.parts o = .ok parts) :
    ∀ line ∈ parts.1.toPattern.bare.solidQuery o parts.2.bare, Spares bad line := by
  obtain ⟨pattern,counted⟩ := partsDone made
  have words := patternSelected pattern
  have formed := writesFormed spelled made
  have code : ∀ {s : List Char}, s.all isCodeChar = true → Spares bad s := sparesCode foreign
  have solid : ∀ lines : List Line, (∀ t ∈ writtenTriples lines, t ∈ parts.1.writes parts.2) →
      ∀ line ∈ lines.filter Line.isSolid, Spares bad (line.text o.namespaces) := by
    intro lines within line member
    obtain ⟨there,kept⟩ := List.mem_filter.mp member
    exact sparesSolid foreign spares kept fun t own =>
      formed t (within t (List.mem_filterMap.mpr ⟨line,there,own⟩))
  have columns : ∀ c ∈ parts.1.projections ++ parts.2.projections, c.Plain := by
    refine List.forall_mem_append.mpr ⟨?_,?_⟩
    · exact nodeColumnPlain (patternSourced pattern)
    · exact countColumnPlain words counted
  have blocks : ∀ b ∈ parts.2.bare.blocks, ∀ line ∈ b.lines o.namespaces, Spares bad line := by
    refine List.forall_mem_map.mpr fun b member => ?_
    obtain ⟨parent,value,raw⟩ := blockWords words counted member
    refine sparesBlock foreign rfl (sparesSelect foreign parent value raw) (sparesGroup foreign parent) ?_
    exact solid b.body fun t own => List.mem_append_right _ (List.mem_flatMap.mpr ⟨b,member,own⟩)
  have declared : ∀ used, ∀ line ∈ o.namespaces.declarations used, Spares bad line.toList := by
    intro used
    simp only [NamespaceTable.declarations,List.forall_mem_map]
    intro e member
    have own := spares e (List.mem_filter.mp member).1
    exact sparesDeclaration foreign own.1 own.2
  rw [Pattern.solidQuery,Pattern.openingBare,Pattern.openingLines,Pattern.solidBody,Pattern.solidLines]
  simp only [List.forall_mem_append,List.forall_mem_cons,List.forall_mem_map,List.forall_mem_flatMap]
  refine ⟨⟨⟨⟨declared _,?_,?_,List.forall_mem_nil _⟩,?_⟩,?_,List.forall_mem_nil _⟩,⟨?_,?_⟩,?_,sparesEnd foreign word⟩
  · exact List.forall_mem_nil _
  · exact code (by decide)
  · exact sparesColumns foreign columns
  · exact code (by decide)
  · exact solid _ fun t own => List.mem_append_left _ own
  · exact blocks
  · exact code (by decide)

/-- Where tokens, bridges and namespaces have neither quotes nor backslashes, the code of a query opens no string. -/
theorem quotelessUnquoted (legible : g.Legible) (spares : o.namespaces.Spares isQuoting)
    (word : ∀ name ∈ o.orderVariable, IsWord name.toList)
    (spelled : g.Spelled fun iri => Spares isQuoting iri.toList) {query : List Char}
    (written : g.queryText o = .ok query) : Unquoted query := by
  obtain ⟨parts,made,same⟩ := bindOk.mp written
  cases same
  exact sparesUnquoted (partsHushed legible made).1
    (sparesJoined (by decide) (sparesQuery quotingForeign spares word spelled made))

end PathQuery
