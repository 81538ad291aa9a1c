import PathQuery.Grammar.Goal
import PathQuery.Proofs.Count.Body
import PathQuery.Proofs.Count.Partition
import PathQuery.Proofs.Order.Pattern
import PathQuery.Proofs.Query.Body
import PathQuery.Query.Compile

/-! The query of a selection does not depend on the order in which its nodes and edges are listed. -/
namespace PathQuery
open CountClosures

namespace Pattern

variable {p q : Pattern} {done others : List Triple} {es fs : List Emission}

def Paired (p q : Pattern) : List Emission → List Emission → Prop := List.Forall₂ fun e f => p.entry e = q.entry f

theorem pairedOf (entries : es.map p.entry = fs.map q.entry) : Paired p q es fs := by
  rw [← List.forall₂_eq_eq_eq,List.forall₂_map_left_iff,List.forall₂_map_right_iff] at entries
  exact entries

theorem linesFromAlike (alike : p.EntriesAlike q) (paired : Paired p q es fs) (opened : List Scope)
    (same : ∀ t, done.contains t = others.contains t) :
    p.linesFrom opened done es = q.linesFrom opened others fs := by
  induction paired generalizing opened done others with
  | nil => rfl
  | @cons e f _ _ here _ ih =>
      obtain ⟨triple,depth,owner,remarks,marker⟩ := Entry.mk.inj here
      have chain : p.chainOf e = q.chainOf f := by rw [chainOf,chainOf,owner,alike.chains]
      have notes : p.notes e = q.notes f := by rw [Pattern.notes,Pattern.notes,remarks,depth]
      have marked : p.marked e = q.marked f := by
        funext opened
        rw [Pattern.marked,Pattern.marked,marker,chain]
      have marking : p.marking e = q.marking f := by
        funext opened
        rw [Pattern.marking,Pattern.marking,marker,chain]
      have further : ∀ t, (f.triple :: done).contains t = (f.triple :: others).contains t := fun t => by
        rw [List.contains_cons,List.contains_cons,same]
      simp only [linesFrom,triple,depth,chain,notes,marked,marking,alike.recorded,same,ih _ same,ih _ further]

theorem linesAlike (alike : p.EntriesAlike q) (same : done.contains = others.contains) :
    p.lines done = q.lines others := linesFromAlike alike (pairedOf alike.entries) [] (congrFun same)

theorem unmarkedAlike (alike : p.EntriesAlike q) : p.unmarked.EntriesAlike q.unmarked where
  entries := by
    have dull : ∀ p : Pattern, p.unmarked.emissions.map p.unmarked.entry =
        (p.emissions.map p.entry).map fun entry => { entry with marker := none } := by
      intro p
      rw [List.map_map]
      rfl
    rw [dull,dull,alike.entries]
  recorded := alike.recorded
  chains := alike.chains

theorem labelsAlike (alike : p.EntriesAlike q) (namespaces : NamespaceTable)
    (same : done.contains = others.contains) : p.labels namespaces done = q.labels namespaces others := by
  have scan : ∀ {es fs : List Emission} {seen : List Triple}, Paired p q es fs →
      p.labelsFrom namespaces done seen es = q.labelsFrom namespaces others seen fs := by
    intro es fs seen paired
    induction paired generalizing seen with
    | nil => rfl
    | @cons e f _ _ here _ ih =>
        have triple : e.triple = f.triple := congrArg Entry.triple here
        simp only [labelsFrom,triple,alike.recorded,congrFun same,ih]
  exact scan (pairedOf alike.entries)

end Pattern

variable {g h : SelectionGraph} {central : String}

theorem closuresReordered (re : Reordered g h) (centred : Centred g central) : ofGraph g = ofGraph h :=
  (re.shape centred).closures re.count

theorem outerReordered (re : Reordered g h) (centred : Centred g central) : Reordered g.outer h.outer := by
  refine re.restrict fun id => ?_
  rw [List.mem_filter,List.mem_filter,re.memIds,closuresReordered re centred]

theorem centralLeft (given : g.effectiveCentral = some central) (uncounted : central ∉ g.count) :
    central ∉ (ofGraph g).excluded := by
  intro excluded
  obtain ⟨k,ids,found,inside⟩ := (excludedIff g central).mp excluded
  -- It hangs from nothing, so the only closure that it could be in is its own.
  cases (memClosure given found).mp inside with
  | here => exact uncounted (recordedIff ⟨ids,found⟩).1
  | down _ link => exact Tree.rootFree (centralHung given) link

theorem outerCentred (centred : Centred g central) (uncounted : central ∉ g.count) : Centred g.outer central := by
  refine centredRestrict centred (List.mem_filter.mpr ⟨centred.inside,?_⟩)
  simpa using centralLeft (centredEffective centred) uncounted

theorem countCentred (centred : Centred g central) {id : String} {members : List String}
    (found : (ofGraph g).members.find? id = some members) (parent : Option String) :
    Centred ((g.restrict (members ++ parent.toList)).withCentral id) id := by
  have given := centredEffective centred
  obtain ⟨nodes,way⟩ := (centralReaches given id).mp (recordedIff ⟨members,found⟩).2
  have inside := SelectionGraph.wayNodes way centred.inside
  exact centredRestrict (centredAt centred inside)
    (List.mem_append_left _ ((memClosure given found).mpr .here))

theorem countReordered (re : Reordered g h) (centred : Centred g central) {id : String} {members : List String}
    (found : (ofGraph g).members.find? id = some members) (full : Bool) (parent : Option String) :
    Together WrittenAlike ((g.countPattern full members parent id).mapError Fault.blurred)
      ((h.countPattern full members parent id).mapError Fault.blurred) :=
  patternReordered ((re.restrict fun _ => Iff.rfl).withCentral id) (countCentred centred found parent) full

theorem coveredAlike {outer outer' sub sub' : SelectPattern} (outers : WrittenAlike outer outer')
    (subs : WrittenAlike sub sub') (names : Renaming) :
    (SelectionGraph.covered outer sub names).contains = (SelectionGraph.covered outer' sub' names).contains := by
  funext t
  rw [Bool.eq_iff_iff,List.contains_iff_mem,List.contains_iff_mem,memCovered,memCovered,← Table.containsIff,
    ← Table.containsIff,outers.recorded,subs.recorded]

theorem talliedAlike (named : g.nameOf = h.nameOf) {outer outer' sub sub' : SelectPattern}
    (outers : WrittenAlike outer outer') (subs : WrittenAlike sub sub') (namespaces : NamespaceTable)
    (parent : Option String) (id : String) :
    g.tallied namespaces outer parent id sub = h.tallied namespaces outer' parent id sub' := by
  have parents : ∀ {p q : SelectPattern}, WrittenAlike p q →
      SelectionGraph.parentVariable p parent = SelectionGraph.parentVariable q parent := fun alike => by
    rw [SelectionGraph.parentVariable,SelectionGraph.parentVariable,alike.selected]
  have body : ∀ names comments, SelectionGraph.countBody namespaces outer sub names comments =
      SelectionGraph.countBody namespaces outer' sub' names comments := fun names comments => by
    rw [SelectionGraph.countBody,SelectionGraph.countBody,
      Pattern.linesAlike (Pattern.unmarkedAlike subs.toEntriesAlike) (coveredAlike outers subs names)]
  have labels : ∀ names, sub.toPattern.labels namespaces (SelectionGraph.covered outer sub names) =
      sub'.toPattern.labels namespaces (SelectionGraph.covered outer' sub' names) := fun names =>
    Pattern.labelsAlike subs.toEntriesAlike namespaces (coveredAlike outers subs names)
  have tally : g.tallyOf namespaces outer sub parent id = h.tallyOf namespaces outer' sub' parent id := by
    funext counted
    simp only [SelectionGraph.tallyOf,SelectionGraph.droppedComments,parents outers,parents subs,body,labels,
      named]
  rw [SelectionGraph.tallied,SelectionGraph.tallied,subs.selected,tally]

theorem tallyReordered (re : Reordered g h) (centred : Centred g central) {outer outer' : SelectPattern}
    (outers : WrittenAlike outer outer') (namespaces : NamespaceTable) (full : Bool) {id : String}
    {members : List String} (found : (ofGraph g).members.find? id = some members) :
    Together Eq ((g.tally namespaces full outer (ofGraph g) id members).mapError Fault.blurred)
      ((h.tally namespaces full outer' (ofGraph g) id members).mapError Fault.blurred) := by
  have hangs : SelectionGraph.hangsOutside outer' ((ofGraph g).parents.find? id) =
      SelectionGraph.hangsOutside outer ((ofGraph g).parents.find? id) := by
    rw [SelectionGraph.hangsOutside,SelectionGraph.hangsOutside,outers.selected,outers.order]
  have named : g.nameOf = h.nameOf := by
    funext id
    rw [SelectionGraph.nameOf,SelectionGraph.nameOf,re.node centred.distinct]
  cases outside : SelectionGraph.hangsOutside outer ((ofGraph g).parents.find? id) with
  | true =>
      unfold SelectionGraph.tally
      simp only [hangs,outside,if_true]
      exact .done rfl
  | false =>
      rw [tallyInside outside,tallyInside (hangs.trans outside),mapErrorBind,mapErrorBind]
      exact togetherBind (countReordered re centred found full _) fun sub sub' subs =>
        .done (talliedAlike named outers subs namespaces _ id)

theorem countsReordered (re : Reordered g h) (centred : Centred g central) {outer outer' : SelectPattern}
    (outers : WrittenAlike outer outer') (namespaces : NamespaceTable) (zero full : Bool) :
    Together Eq ((Counts.ofGraph g outer (ofGraph g) namespaces zero full).mapError Fault.blurred)
      ((Counts.ofGraph h outer' (ofGraph g) namespaces zero full).mapError Fault.blurred) := by
  unfold Counts.ofGraph
  rw [mapErrorBind,mapErrorBind,mapErrorMapM,mapErrorMapM]
  refine togetherBind (togetherMapM (R := Eq) fun entry member =>
    tallyReordered re centred outers namespaces full (Table.findEntry (keysDistinct g) member)) ?_
  intro tallies others same
  rw [List.forall₂_eq_eq_eq] at same
  rw [same,outers.columns,(re.shape centred).depths]
  exact .done rfl

theorem fullReordered (re : Reordered g h) (centred : Centred g central) (o : QueryOptions) :
    g.fullPrefixes o = h.fullPrefixes o := by
  rw [SelectionGraph.fullPrefixes,SelectionGraph.fullPrefixes,re.effective centred,re.node centred.distinct]

theorem headerReordered (re : Reordered g h) (full : Bool) : g.headerLines full = h.headerLines full := by
  have size : g.size = h.size := re.nodes.length_eq
  rw [SelectionGraph.headerLines,SelectionGraph.headerLines,re.central,size]

theorem queryAlike {p q : SelectPattern} (alike : WrittenAlike p q) (o : QueryOptions) (extras : Extras) :
    p.toPattern.query o extras = q.toPattern.query o extras := by
  have labels : p.toPattern.labels o.namespaces [] = q.toPattern.labels o.namespaces [] :=
    Pattern.labelsAlike alike.toEntriesAlike o.namespaces rfl
  have lines : p.toPattern.lines [] = q.toPattern.lines [] := Pattern.linesAlike alike.toEntriesAlike rfl
  rw [Pattern.query,Pattern.query,Pattern.queryLines,Pattern.queryLines,Pattern.bodyLines,Pattern.bodyLines,labels,
    lines,alike.columns]

theorem queryReordered (re : Reordered g h) (centred : Centred g central) (uncounted : central ∉ g.count)
    (o : QueryOptions) :
    Together Eq ((g.queryText o).mapError Fault.blurred) ((h.queryText o).mapError Fault.blurred) := by
  have outers := patternReordered (outerReordered re centred) (outerCentred centred uncounted) (g.fullPrefixes o)
  have parts : Together (fun a b => WrittenAlike a.1 b.1 ∧ a.2 = b.2) ((g.parts o).mapError Fault.blurred)
      ((h.parts o).mapError Fault.blurred) := by
    unfold SelectionGraph.parts
    rw [← fullReordered re centred,← closuresReordered re centred,mapErrorBind,mapErrorBind]
    refine togetherBind outers fun outer outer' alike => ?_
    rw [mapErrorBind,mapErrorBind]
    exact togetherBind (countsReordered re centred alike o.namespaces o.includeZeroCounts (g.fullPrefixes o))
      fun counts counts' same => .done ⟨alike,same⟩
  unfold SelectionGraph.queryText
  rw [mapErrorBind,mapErrorBind]
  refine togetherBind parts fun ⟨outer,counts⟩ ⟨outer',counts'⟩ ⟨alike,same⟩ => ?_
  obtain rfl : counts = counts' := same
  exact .done (queryAlike alike o _)

theorem blurredSame {first second : Fault} (same : first.blurred = second.blurred) :
    first = second ∨ ∃ kind other, first = .notText kind ∧ second = .notText other := by
  cases first with
  | notText kind =>
      cases second with
      | notText other => exact .inr ⟨kind,other,rfl,rfl⟩
      | _ => contradiction
  | _ =>
      cases second with
      | notText other => contradiction
      | _ => exact .inl same

/-- What comes of a selection does not depend on the order of its nodes and edges, as long as the bridges into
each node stay in theirs and the central node is selected and not counted. Only where a bridge is no text, so that
no query is written in either order, the complaint may be about another one. -/
theorem compileReordered {central : String} (distinct : g.nodeIds.Nodup) (named : "" ∉ g.nodeIds)
    (given : g.central = some central) (inside : central ∈ g.nodeIds) (uncounted : central ∉ g.count)
    (re : Reordered g h) (check : Check) (o : QueryOptions) :
    g.compile check o = h.compile check o ∨ (∃ e ∈ g.edges, e.bridgeFault? ≠ none) ∧
      ∃ kind other, g.compile check o = .error (.notText kind) ∧ h.compile check o = .error (.notText other) := by
  have centred : Centred g central := ⟨distinct,named,given,inside⟩
  have header := headerReordered re (g.fullPrefixes o)
  rw [SelectionGraph.compile,SelectionGraph.compile,← fullReordered re centred,header]
  obtain ⟨told,one,two⟩ | ⟨query,_,made,again,rfl⟩ := togetherCases (queryReordered re centred uncounted o)
  · obtain ⟨first,failed,here⟩ := mapErrorFailed one
    obtain ⟨second,later,there⟩ := mapErrorFailed two
    rw [failed,later]
    rcases blurredSame (here.trans there.symm) with rfl | ⟨kind,other,rfl,rfl⟩
    · exact .inl rfl
    · refine .inr ⟨Decidable.byContradiction fun sound => ?_,kind,other,rfl,rfl⟩
      obtain ⟨outer,counts,made,counted⟩ := partsMade (g := g) (fun e member => Decidable.byContradiction
        fun faulty => sound ⟨e,member,faulty⟩) o
      simp [SelectionGraph.queryText,SelectionGraph.parts,made,counted,bind,Except.bind] at failed
  · exact .inl (by rw [mapErrorOk made,mapErrorOk again])

def linkedThings (ids : List String) (edges : List SelectedEdge) : SelectionGraph :=
  { nodes := ids.map fun id => ⟨id,id,some ⟨id,"",false,.field,"",none,["urn:" ++ id]⟩⟩
    edges := edges
    central := some "c"
    count := ["k"] }

def bridgedThings : SelectionGraph := linkedThings ["c","k","x","y"]
  [⟨"c","x",.text "urn:q",false⟩,⟨"y","x",.text "urn:r",false⟩,⟨"c","y",.text "urn:s",false⟩,⟨"c","k",.null,false⟩]

def shuffledThings : SelectionGraph := linkedThings ["y","c","x","k"]
  [⟨"c","k",.null,false⟩,⟨"c","y",.text "urn:s",false⟩,⟨"c","x",.text "urn:q",false⟩,⟨"y","x",.text "urn:r",false⟩]

theorem thingsReordered : Reordered bridgedThings shuffledThings where
  nodes := by decide +kernel
  edges := by decide +kernel
  bridges := by
    intro id
    have first : Draft.bridgedEdges bridgedThings.edges = [⟨"c","x",.text "urn:q",false⟩,
        ⟨"y","x",.text "urn:r",false⟩,⟨"c","y",.text "urn:s",false⟩] := by decide +kernel
    have second : Draft.bridgedEdges shuffledThings.edges = [⟨"c","y",.text "urn:s",false⟩,
        ⟨"c","x",.text "urn:q",false⟩,⟨"y","x",.text "urn:r",false⟩] := by decide +kernel
    rw [first,second]
    by_cases x : "x" = id
    · subst x
      decide
    · simp [x,List.filter_cons]
  central := rfl
  count := rfl

theorem shuffledThingsAlike :
    bridgedThings.nodes ≠ shuffledThings.nodes ∧ bridgedThings.edges ≠ shuffledThings.edges ∧
    ∃ text, bridgedThings.compile Grammar.validate .standard = .ok text ∧
      shuffledThings.compile Grammar.validate .standard = .ok text := by
  refine ⟨by decide +kernel,by decide +kernel,?_⟩
  have written : (bridgedThings.compile Grammar.validate .standard).toBool = true := by decide +kernel
  have given : bridgedThings.central = some "c" := rfl
  obtain same | ⟨_,_,_,failed,_⟩ := compileReordered (by decide +kernel) (by decide +kernel) given
    (by decide +kernel) (by decide +kernel) thingsReordered Grammar.validate .standard
  · rw [← same]
    cases made : bridgedThings.compile Grammar.validate .standard with
    | error fault => simp [made,Except.toBool] at written
    | ok text => exact ⟨text,rfl,rfl⟩
  · simp [failed,Except.toBool] at written

end PathQuery
