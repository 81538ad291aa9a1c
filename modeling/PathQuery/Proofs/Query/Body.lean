import PathQuery.Proofs.Count.Body
import PathQuery.Proofs.Query.Line

/-! What a selection must be like for its query to be written, and the lines that it then has: those of
its pattern and those of each count can all be read, and so can the columns. -/
namespace PathQuery
open Grammar

structure SelectionGraph.Writable (g : SelectionGraph) : Prop where
  tokens : ∀ n ∈ g.nodes, ∀ token ∈ n.path, IriText (classIri token)
  classes : ∀ n ∈ g.nodes, ∀ cls ∈ evens n.path, classIri cls ≠ rdfType
  bridges : ∀ e ∈ g.edges, e.bridgeFault? = none ∧ IriText (classIri e.bridgePredicate)
  names : ∀ n ∈ g.nodes, '\n' ∉ n.name.toList ∧ '\\' ∉ n.name.toList

variable {g : SelectionGraph}

theorem writableRestrict (writable : g.Writable) (ids : List String) : (g.restrict ids).Writable where
  tokens := fun n member => writable.tokens n (List.mem_filter.mp member).1
  classes := fun n member => writable.classes n (List.mem_filter.mp member).1
  bridges := fun e member => writable.bridges e (List.mem_filter.mp member).1
  names := fun n member => writable.names n (List.mem_filter.mp member).1

theorem writableCentral (writable : g.Writable) (id : String) : (g.withCentral id).Writable :=
  ⟨writable.tokens,writable.classes,writable.bridges,writable.names⟩

theorem edgesSound (sound : ∀ e ∈ g.edges, e.bridgeFault? = none) : g.bridgeFault? = none := by
  rw [SelectionGraph.bridgeFault?,List.findSome?_eq_none_iff]
  exact fun e member => sound e (SelectionGraph.memInternalEdges.mp member).1

theorem partsMade (sound : ∀ e ∈ g.edges, e.bridgeFault? = none) (o : QueryOptions) : ∃ outer counts,
    g.outer.pattern (g.fullPrefixes o) = .ok outer ∧ Counts.ofGraph g outer (CountClosures.ofGraph g) o.namespaces
      o.includeZeroCounts (g.fullPrefixes o) = .ok counts := by
  have part : ∀ ids central, ((g.restrict ids).withCentral central).bridgeFault? = none := fun ids central =>
    edgesSound fun e member => sound e (List.mem_filter.mp member).1
  have rest : g.outer.bridgeFault? = none := edgesSound fun e member => sound e (List.mem_filter.mp member).1
  obtain ⟨outer,made⟩ := patternMade rest (g.fullPrefixes o)
  have each : ∀ members parent id, ∃ sub, g.countPattern (g.fullPrefixes o) members parent id = .ok sub :=
    fun members parent id => patternMade (part (members ++ parent.toList) id) _
  obtain ⟨counts,counted⟩ := countsDone each outer o.namespaces o.includeZeroCounts
  exact ⟨outer,counts,made,counted⟩

theorem evensSubset {α : Type} {a : α} {items : List α} (member : a ∈ evens items) : a ∈ items := by
  fun_induction evens items with
  | case1 => exact member
  | case2 => exact member
  | case3 first second rest ih =>
      rcases List.mem_cons.mp member with rfl | later
      · simp
      · exact List.mem_cons_of_mem _ (List.mem_cons_of_mem _ (ih later))

theorem plainAsked (writable : g.Writable) {t : Triple} (asked : g.Asks t) : PlainTriple t := by
  cases asked with
  | path node walk =>
      cases walk with
      | kind word member =>
          exact .kind word (writable.tokens _ node _ (evensSubset member)) (writable.classes _ node _ member)
      | link start stop member => exact plainLink start (writable.tokens _ node _ member) stop
  | bridge edge bridged start stop => exact plainLink start (writable.bridges _ edge).2 stop

theorem commentOpens (source arrow target : String) :
    (transitionComment source arrow target).toList.head? = some '#' := by
  simp [transitionComment]

theorem centralOpens (name : String) : (centralComment name).toList.head? = some '#' := by
  unfold centralComment
  simp only [String.toList_append,List.append_assoc]
  rw [List.head?_append]
  simp

theorem arrowPlain (arrow : Arrow) : '\n' ∉ arrow.label.toList ∧ '\\' ∉ arrow.label.toList := by
  cases arrow <;> decide

theorem noteOf {text : List Char} (line : '\n' ∉ text) (plain : '\\' ∉ text) : NoteText ('#' :: text) :=
  ⟨text,rfl,line,plain⟩

theorem transitionNote {parent name : String} (source : '\n' ∉ parent.toList ∧ '\\' ∉ parent.toList)
    (target : '\n' ∉ name.toList ∧ '\\' ∉ name.toList) (arrow : Arrow) :
    NoteText (transitionComment parent arrow.label name).toList := by
  have between := arrowPlain arrow
  have text : (transitionComment parent arrow.label name).toList =
      '#' :: (' ' :: (parent.toList ++ (' ' :: (arrow.label.toList ++ (' ' :: name.toList))))) := by
    simp [transitionComment]
  rw [text]
  exact noteOf (by simp [source.1,target.1,between.1]) (by simp [source.2,target.2,between.2])

theorem centralNote (writable : g.Writable) {n : SelectedNode} (member : n ∈ g.nodes) :
    NoteText (centralComment n.name).toList := by
  have name := writable.names n member
  have text : (centralComment n.name).toList =
      "# >>>> Central node: ".toList ++ (n.name.toList ++ " <<<<".toList) := by
    unfold centralComment
    simp only [String.toList_append,List.append_assoc]
  rw [text]
  change NoteText ('#' :: (" >>>> Central node: ".toList ++ (n.name.toList ++ " <<<<".toList)))
  exact noteOf (by simp [name.1]) (by simp [name.2])

theorem remarkNote (writable : g.Writable) {text : String} (remark : g.Remarks text) :
    NoteText text.toList := by
  obtain ⟨arrow,m,first,n,second,rfl⟩ := remark
  exact transitionNote (writable.names _ first) (writable.names _ second) arrow

inductive SelectionGraph.Says (g : SelectionGraph) : Line → Prop where
  | blank : g.Says .blank
  | note (depth : Int) {text : String} (remark : g.Remarks text) : g.Says (.note depth text)
  | marker {n : SelectedNode} (member : n ∈ g.nodes) : g.Says (.marker (centralComment n.name))
  | opening (scope : Scope) : g.Says (.opening scope)
  | closing (scope : Scope) : g.Says (.closing scope)
  | triple (depth : Int) {t : Triple} (asked : g.Asks t) : g.Says (.triple depth t)

namespace Pattern

variable {p : Pattern}

theorem notesSaid (sourced : p.Sourced g) (e : Emission) : ∀ line ∈ p.notes e, g.Says line := by
  intro line member
  obtain ⟨text,there,member⟩ := List.mem_flatMap.mp member
  rcases List.mem_cons.mp member with rfl | member
  · exact .blank
  · rw [List.mem_singleton.mp member]
    unfold Table.findD at there
    cases found : p.comments.find? e.id with
    | none => simp [found] at there
    | some texts =>
        rw [found] at there
        exact .note e.depth (sourced.remarks texts (Table.findValue found) text there)

theorem closingsSaid (scopes : List Scope) : ∀ line ∈ closings scopes, g.Says line := by
  intro line member
  obtain ⟨scope,_,rfl⟩ := List.mem_map.mp member
  exact .closing scope

theorem openingsSaid (scopes : List Scope) : ∀ line ∈ scopes.map Line.opening, g.Says line := by
  intro line member
  obtain ⟨scope,_,rfl⟩ := List.mem_map.mp member
  exact .opening scope

theorem markingSaid (sourced : p.Sourced g) (e : Emission) (opened : List Scope) :
    ∀ line ∈ p.marking e opened, g.Says line := by
  intro line member
  unfold marking at member
  split at member
  · next comment at_ =>
    rcases List.mem_append.mp member with closing | member
    · exact closingsSaid _ line closing
    · rcases List.mem_cons.mp member with rfl | member
      · exact .blank
      · rw [List.mem_singleton.mp member]
        obtain ⟨m,found,rfl⟩ := Option.map_eq_some_iff.mp at_
        obtain ⟨n,there,same⟩ := sourced.marked m (Option.filter_eq_some_iff.mp found).1
        rw [same]
        exact .marker there
  · nomatch member

theorem linesFromSaid (sourced : p.Sourced g) {opened : List Scope} {done : List Triple}
    {emissions : List Emission} (asked : ∀ e ∈ emissions, g.Asks e.triple) :
    ∀ line ∈ p.linesFrom opened done emissions, g.Says line := by
  induction emissions generalizing opened done with
  | nil => exact closingsSaid opened
  | cons e rest ih =>
      have later : ∀ {opened done}, ∀ line ∈ p.linesFrom opened done rest, g.Says line :=
        ih fun e member => asked e (List.mem_cons_of_mem _ member)
      intro line member
      unfold linesFrom at member
      split at member
      · rcases List.mem_append.mp member with before | member
        · rcases List.mem_append.mp before with note | mark
          · exact notesSaid sourced e line note
          · exact markingSaid sourced e opened line mark
        · split at member
          · exact later line member
          · rcases List.mem_append.mp member with scopes | member
            · rcases List.mem_append.mp scopes with left | entered
              · exact closingsSaid _ line left
              · exact openingsSaid _ line entered
            · rcases List.mem_cons.mp member with rfl | member
              · exact .triple e.depth (asked e (by simp))
              · exact later line member
      · exact later line member

theorem linesSaid (sourced : p.Sourced g) (excluded : List Triple) : ∀ line ∈ p.lines excluded, g.Says line :=
  linesFromSaid sourced sourced.asked

theorem plainLines (writable : g.Writable) (sourced : p.Sourced g) (excluded : List Triple) :
    ∀ line ∈ p.lines excluded, line.Plain := by
  intro line member
  cases linesSaid sourced excluded line member with
  | note depth remark => exact remarkNote writable remark
  | marker there => exact centralNote writable there
  | triple depth asked => exact plainAsked writable asked
  | blank => trivial
  | opening scope => trivial
  | closing scope => trivial

theorem unmarkedSourced (sourced : p.Sourced g) : p.unmarked.Sourced g :=
  { sourced with marked := fun _ member => nomatch member }

end Pattern

theorem countBodyPlain (writable : g.Writable) {outer sub : SelectPattern} (sourced : sub.toPattern.Sourced g)
    {names : Renaming} (words : names.Words) {comments : List (List Char)} (notes : AreNotes comments) :
    (∀ line ∈ SelectionGraph.countBody .standard outer sub names comments, line.Plain) ∧
      openAfter 0 (SelectionGraph.countBody .standard outer sub names comments) = some 0 := by
  constructor
  · intro line member
    obtain ⟨source,there,rfl⟩ := List.mem_map.mp (withoutCommentsSubset member)
    exact linePlainRename words
      (Pattern.plainLines writable (Pattern.unmarkedSourced sourced) (SelectionGraph.covered outer sub names)
        source there)
  · exact countBodyScopes .standard outer sourced names notes

end PathQuery
