import PathQuery.Proofs.Grammar.Trimming
import PathQuery.Proofs.Pattern.Growth
import PathQuery.Proofs.Pattern.Requests
import PathQuery.Proofs.Text.Fragment

/-! The names of variables. They are put together from fragments, fixed words and numbers, and so each of them may
stand behind the mark of a variable in a query, whatever the ids are that the fragments come from. -/
namespace PathQuery

def IsVariableName (x : String) : Prop := Grammar.readVar ('?' :: x.toList) = some []

theorem wordNames {x : String} (word : IsWord x.toList) : IsVariableName x := by
  have read := Grammar.readVarWord word (s := []) nofun
  rwa [List.append_nil] at read

namespace Draft

structure Worded (d : Draft) : Prop where
  wishes : d.wishes.Words
  names : d.names.given.Words
  selected : d.selected.Words

variable {d : Draft}

theorem wordedStart (g : SelectionGraph) (full : Bool) : (start g full).Worded :=
  ⟨wishesWords g _,Table.wordsEmpty,Table.wordsEmpty⟩

theorem wordedNode (worded : d.Worded) (id : String) : (d.emitNode id).Worded := by
  cases found : d.graph.node? id with
  | none => simpa only [emitNode,found] using worded
  | some n =>
      cases walked : (d.walkerOf id n).walk? d.names n.path with
      | none => simpa only [emitNode,found,walked] using worded
      | some walk =>
          obtain ⟨records,log,same⟩ := emitNodeElse found walked
          have words := walkWorded (walkerWorded worded.wishes id n) worded.names walked
          rw [same]
          exact ⟨worded.wishes,words.names,Table.wordsInsert worded.selected words.current id⟩

theorem wordedStep (worded : d.Worded) (op : Operation) : (d.perform op).Worded := by
  cases op with
  | node id => exact wordedNode worded id
  | triple t depth owner => exact { worded with }
  | comment emission text => exact { worded with }
  | bridges =>
      obtain ⟨_,_,_,same⟩ := bridgesElse d (bridgedEdges d.soundEdges)
      change ((bridgedEdges d.soundEdges).foldl bridge d).Worded
      rw [same]
      exact { worded with }
  | transitions bridged =>
      rw [perform]
      split
      · next after done =>
        obtain ⟨comments,rfl⟩ := annotateElse done
        exact { worded with }
      · exact worded

theorem wordedRun (worded : d.Worded) (operations : List Operation) : (d.performAll operations).Worded :=
  List.foldlRecOn operations perform worded fun _ worded op _ => wordedStep worded op

end Draft

theorem asksWords {g : SelectionGraph} {t : Triple} (asked : g.Asks t) : ∀ x ∈ t.varNames, IsWord x.toList := by
  have linked : ∀ {source target : String} (token : String), IsWord source.toList → IsWord target.toList →
      ∀ x ∈ (linkTriple source token target).varNames, IsWord x.toList := by
    intro source target token start stop x member
    rcases linkNames.mp member with rfl | rfl
    · exact start
    · exact stop
  cases asked with
  | path node walk =>
      cases walk with
      | kind word member => exact List.forall_mem_singleton.mpr word
      | link start stop member => exact linked _ start stop
  | bridge edge bridged start stop => exact linked _ start stop

theorem patternVariables {g : SelectionGraph} {full : Bool} {p : SelectPattern} (made : g.pattern full = .ok p) :
    (∀ t ∈ p.records.keys, ∀ x ∈ t.varNames, IsVariableName x) ∧
      ∀ column ∈ p.projections, IsVariableName column.name := by
  have sourced := patternSourced made
  constructor
  · intro t member x inside
    obtain ⟨e,there,rfl⟩ := (sourced.recorded t).mp (Table.containsIff.mpr member)
    exact wordNames (asksWords (sourced.asked e there) x inside)
  · exact fun column member => wordNames (sourced.columns column member).1

theorem fragmentStripped (s : String) : fragment (Text.strip s) = fragment s := by
  have each : ∀ c ∈ Grammar.blanks, ∀ d ∈ Text.lowerChar c, (!isFragmentChar d) = true := by decide
  have gaps : ∀ {gap : List Char}, (∀ c ∈ gap, Text.isBlank c = true) →
      ∀ d ∈ gap.flatMap Text.lowerChar, (!isFragmentChar d) = true := by
    intro gap blank d member
    obtain ⟨c,inside,there⟩ := List.mem_flatMap.mp member
    exact each c (Grammar.blankListed (blank c inside)) d there
  obtain ⟨back,behind,ended⟩ := Grammar.trimEndSplit (Text.trimStart s.toList)
  have before : ∀ c ∈ s.toList.takeWhile Text.isBlank, Text.isBlank c = true := fun c => List.mem_takeWhile_imp
  have whole : s.toList = s.toList.takeWhile Text.isBlank ++ Text.trim s.toList ++ back := by
    rw [List.append_assoc,Text.trim,← ended]
    exact List.takeWhile_append_dropWhile.symm
  have same : runs (Text.lower (Text.trim s.toList)) = runs (Text.lower s.toList) := calc
    _ = runs ((Text.trim s.toList).flatMap Text.lowerChar) := runsLower _
    _ = runs ((s.toList.takeWhile Text.isBlank ++ Text.trim s.toList ++ back).flatMap Text.lowerChar) := by
      rw [List.flatMap_append,List.flatMap_append]
      exact (Text.partsBetween (gaps before) (gaps behind) _).symm
    _ = runs (Text.lower s.toList) := by rw [← whole,runsLower]
  rw [fragment,fragment,Text.strip,String.toList_ofList,fragmentChars,fragmentChars,same]

/-- A fragment, of an id or of none, has a small letter in front and then small letters, digits and single
underscores, the last of which is not at its end. It is its own fragment, and the case of ASCII letters does not
count, nor do blanks around the id. So all names that are wished for, given out or selected while a pattern is made,
and all variables and columns of the pattern, are names of variables. -/
theorem fragmentsNameVariables (id : Option String) :
    let s := id.getD ""
    IsFragment (fragment s) ∧ fragment (fragment s) = fragment s ∧ fragment (Text.strip s) = fragment s ∧
    (∀ t : String, t.toList.map Char.toLower = s.toList.map Char.toLower → fragment t = fragment s) ∧
    (∀ (g : SelectionGraph) (full : Bool) (operations : List Draft.Operation),
      let d := (Draft.start g full).performAll operations
      ∀ x ∈ d.wishes.values ++ d.names.given.values ++ d.selected.values, IsVariableName x) ∧
    ∀ (g : SelectionGraph) (full : Bool) (p : SelectPattern), g.pattern full = .ok p →
      (∀ t ∈ p.records.keys, ∀ x ∈ t.varNames, IsVariableName x) ∧
        ∀ column ∈ p.projections, IsVariableName column.name := by
  intro s
  refine ⟨fragmentShape s,fragmentAgain s,fragmentStripped s,fun t same => fragmentCase same,?_,?_⟩
  · intro g full operations d x member
    have worded : d.Worded := Draft.wordedRun (Draft.wordedStart g full) operations
    rw [List.append_assoc,List.mem_append,List.mem_append] at member
    rcases member with wished | given | selected
    · exact wordNames (worded.wishes x wished)
    · exact wordNames (worded.names x given)
    · exact wordNames (worded.selected x selected)
  · exact fun g full p made => patternVariables made

example : fragment " Birth--Date! " = "birth_date" ∧ fragment "123abc" = "p_123abc" ∧ fragment "\u212A" = "k" := by
  decide +kernel

end PathQuery
