import PathQuery.Proofs.Count.Writing
import PathQuery.Proofs.Query.Denotation
import PathQuery.Proofs.Query.LineCounts
import PathQuery.Proofs.Query.Projected
import PathQuery.Proofs.Query.Validity

/-! The triple lines that are counted in the text of a query are those of its pattern and of its counts, as long as no
comment has a triple line behind a break. Only a node that goes by its own id can bring one. -/
namespace PathQuery
open Query Text

variable {namespaces : NamespaceTable}

structure CountBlock.Tidy (b : CountBlock) : Prop where
  parent : ∀ p ∈ b.parent, IsWord p.toList
  counted : IsWord b.counted.toList
  raw : IsWord b.raw.toList
  comment : ∀ text ∈ b.comment, text.toList.head? = some '#'
  body : ∀ line ∈ b.body, line.Tidy

def CountBlock.remarks (b : CountBlock) : List String := b.comment.toList ++ PathQuery.remarks b.body

variable {b : CountBlock} {margin : List Char}

theorem blockSelectUnbroken (tidy : b.Tidy) : Unbroken b.select :=
  sparesSelect breakForeign tidy.parent tidy.counted tidy.raw

theorem selectQuiet (tidy : b.Tidy) (spaces : ∀ c ∈ margin, c = ' ') : tripleLineCount (margin ++ b.select) = 0 :=
  spacedQuiet spaces (blockSelectUnbroken tidy) (endsBehind (by decide) _)

theorem groupQuiet (tidy : b.Tidy) (spaces : ∀ c ∈ margin, c = ' ') :
    (((b.groupBy.filter (· ≠ [])).toList.map (margin ++ ·)).map tripleLineCount).sum = 0 := by
  unfold CountBlock.groupBy
  cases given : b.parent with
  | none => rfl
  | some p =>
      have word := tidy.parent p given
      have quiet := spacedQuiet spaces (unbrokenAppend (a := "GROUP BY ?".toList) (by decide) (wordUnbroken word))
        (endsBehind (wordEnds word) _)
      simpa [Option.filter] using quiet

theorem commentCounts (tidy : b.Tidy) (spaces : ∀ c ∈ margin, c = ' ') :
    ((((b.comment.map (·.toList)).filter (· ≠ [])).toList.map (margin ++ ·)).map tripleLineCount).sum =
      countedIn b.comment.toList := by
  cases given : b.comment with
  | none => rfl
  | some text =>
      have opens := tidy.comment text given
      have filled : text.toList ≠ [] := by
        intro none
        simp [none] at opens
      simpa [Option.filter,filled,countedIn] using commentIndented spaces opens

theorem innerSpaces (optional : Bool) : ∀ c ∈ (if optional then "    ".toList else "  ".toList), c = ' ' := by
  cases optional <;> simp

theorem gapSpaces (optional : Bool) : ∀ c ∈ (if optional then [] else "  ".toList), c = ' ' := by
  cases optional <;> simp

theorem blockCounts (lined : namespaces.Lined) (tidy : b.Tidy) : ((b.lines namespaces).map tripleLineCount).sum =
    (writtenTriples b.body).length + countedIn b.remarks := by
  have two : ∀ c ∈ "  ".toList, c = ' ' := by simp
  have inner := innerSpaces b.optional
  have fixed : ∀ {word : List Char}, Unbroken word → EndsPlainly word →
      tripleLineCount ((if b.optional then "    ".toList else "  ".toList) ++ word) = 0 := spacedQuiet inner
  have scope : ∀ ending : List Char, tripleLineCount ("  ".toList ++ ending) = 0 →
      ((if b.optional then ["  ".toList ++ ending] else []).map tripleLineCount).sum = 0 := by
    intro ending quiet
    split
    · simpa using quiet
    · rfl
  have body : (((b.body.map (Line.text namespaces)).map
      (indented (if b.optional then "    ".toList else "  ".toList))).map tripleLineCount).sum =
        (writtenTriples b.body).length + countedIn (remarks b.body) :=
    linesCount lined (indentsBy inner) tidy.body
  have remarked : countedIn b.remarks = countedIn b.comment.toList + countedIn (PathQuery.remarks b.body) := by
    simp [CountBlock.remarks,countedIn]
  unfold CountBlock.lines blockLines
  simp only [List.map_append,List.sum_append,List.map_cons,List.sum_cons,List.map_nil,List.sum_nil]
  rw [commentCounts tidy two,scope _ (by decide +kernel),scope _ (by decide +kernel),fixed (by decide) (by decide),
    selectQuiet tidy (List.forall_mem_append.mpr ⟨inner,gapSpaces b.optional⟩),fixed (by decide) (by decide),body,
    fixed (by decide) (by decide),groupQuiet tidy (List.forall_mem_append.mpr ⟨inner,two⟩),fixed (by decide) (by decide),
    remarked]
  omega

theorem addedCounts (blocks : List (List (List Char))) (lines : List (List Char)) :
    ((blocks.foldl addBlock lines).map tripleLineCount).sum =
      (lines.map tripleLineCount).sum + (blocks.map fun block => (block.map tripleLineCount).sum).sum := by
  induction blocks generalizing lines with
  | nil => rfl
  | cons block rest ih =>
      have added : ((addBlock lines block).map tripleLineCount).sum =
          (lines.map tripleLineCount).sum + (block.map tripleLineCount).sum := by
        unfold addBlock
        split
        · next empty =>
          rw [List.isEmpty_iff.mp empty]
          simp
        · simp [tripleLineCount,splitLines]
      rw [List.foldl_cons,ih,added,List.map_cons,List.sum_cons,Nat.add_assoc]

variable {g : SelectionGraph} {o : QueryOptions} {outer : SelectPattern} {counts : Counts} {full : Bool}

theorem saidTidy (spelled : g.Spelled Lined) {line : Line} (said : g.Says line) : line.Tidy := by
  cases said with
  | note depth remark =>
      obtain ⟨arrow,m,_,n,_,rfl⟩ := remark
      exact commentOpens _ _ _
  | marker member => exact centralOpens _
  | triple depth asked => exact formedAsked spelled asked
  | blank => trivial
  | opening scope => trivial
  | closing scope => trivial

theorem tidyRename {names : Renaming} (words : names.Words) {line : Line} (tidy : line.Tidy) :
    (line.rename names).Tidy := by
  cases line with
  | triple depth t => exact formedRename words tidy
  | _ => exact tidy

variable {closures : CountClosures} {zero : Bool}

theorem blockSaid (words : outer.selected.Words)
    (counted : Counts.ofGraph g outer closures namespaces zero full = .ok counts) (member : b ∈ counts.blocks)
    {line : Line} (inside : line ∈ b.body) : ∃ ids id source, ∃ names : Renaming, names.Words ∧
      ((g.restrict ids).withCentral id).Says source ∧ source.rename names = line := by
  obtain ⟨entry,_,sub,t,tally,block⟩ := blockSource counted member
  rw [block.body,tally.body] at inside
  obtain ⟨source,there,same⟩ := List.mem_map.mp (withoutCommentsSubset inside)
  have renamed := parentRenamingWords (SelectionGraph.parentVariable sub (closures.parents.find? entry.1))
    (tallyWords words tally).2
  have sourced := Pattern.unmarkedSourced (patternSourced tally.made)
  exact ⟨_,_,source,_,renamed,Pattern.linesSaid sourced _ source there,same⟩

theorem blockComment (counted : Counts.ofGraph g outer closures namespaces zero full = .ok counts)
    (member : b ∈ counts.blocks) {text : String} (comment : text ∈ b.comment) :
    ∃ n ∈ g.nodes, ∃ id, text = transitionComment n.name Arrow.plain.label ((g.nameOf id).getD "") := by
  obtain ⟨entry,_,_,_,tally,block⟩ := blockSource counted member
  rw [block.comment,tally.comment] at comment
  obtain ⟨name,found,rfl⟩ := Option.map_eq_some_iff.mp comment
  obtain ⟨id,_,named⟩ := Option.bind_eq_some_iff.mp found
  obtain ⟨n,there,rfl⟩ := nameOfNode named
  exact ⟨n,there,entry.1,rfl⟩

theorem blockTidy (spelled : g.Spelled Lined) (words : outer.selected.Words)
    (counted : Counts.ofGraph g outer closures namespaces zero full = .ok counts) (member : b ∈ counts.blocks) :
    b.Tidy := by
  obtain ⟨parents,values,raws⟩ := blockWords words counted member
  refine ⟨parents,values,raws,fun text comment => ?_,fun line inside => ?_⟩
  · obtain ⟨n,_,id,rfl⟩ := blockComment counted member comment
    exact commentOpens _ _ _
  · obtain ⟨ids,id,source,names,renamed,said,rfl⟩ := blockSaid words counted member inside
    exact tidyRename renamed (saidTidy (spelledCentral (spelledRestrict spelled ids) id) said)

theorem partsTidy (spelled : g.Spelled Lined) (done : g.parts o = .ok (outer,counts)) :
    (∀ line ∈ outer.toPattern.lines [], line.Tidy) ∧ ∀ b ∈ counts.blocks, b.Tidy := by
  obtain ⟨made,counted⟩ := partsDone done
  exact ⟨fun line member =>
      saidTidy (spelledRestrict spelled _) (Pattern.linesSaid (patternSourced made) [] line member),
    fun b => blockTidy spelled (patternSelected made) counted⟩

def SelectPattern.tripleTotal (outer : SelectPattern) (counts : Counts) : Nat :=
  outer.records.keys.length + (counts.blocks.map fun b => (writtenTriples b.body).length).sum

def SelectPattern.remarks (outer : SelectPattern) (counts : Counts) : List String :=
  PathQuery.remarks (outer.toPattern.lines []) ++ counts.blocks.flatMap CountBlock.remarks

theorem countedAppend (first second : List String) :
    countedIn (first ++ second) = countedIn first + countedIn second := by
  simp [countedIn]

theorem blocksCount (lined : namespaces.Lined) {blocks : List CountBlock} (tidy : ∀ b ∈ blocks, b.Tidy) :
    ((blocks.map (CountBlock.lines namespaces)).map fun block => (block.map tripleLineCount).sum).sum =
      (blocks.map fun b => (writtenTriples b.body).length).sum + countedIn (blocks.flatMap CountBlock.remarks) := by
  induction blocks with
  | nil => rfl
  | cons b rest ih =>
      have later := ih fun other member => tidy other (List.mem_cons_of_mem _ member)
      simp only [List.map_cons,List.sum_cons,List.flatMap_cons,countedAppend,blockCounts lined (tidy b (by simp)),later]
      omega

theorem columnQuiet {c : Projection} (plain : c.Plain) : tripleLineCount c.text = 0 := by
  refine endingQuiet (columnUnbroken plain) ?_
  have expression : EndsPlainly c.expression := by
    unfold Projection.expression
    split
    · exact endsBehind (by decide) _
    · exact endsBehind (wordEnds plain.1) ['?']
  unfold Projection.text
  cases c.central with
  | true => exact endsBehind (by decide) _
  | false =>
      rw [if_neg (by simp),List.append_nil]
      exact endsBehind expression _

theorem quietSum {lines : List (List Char)} (quiet : ∀ line ∈ lines, tripleLineCount line = 0) :
    (lines.map tripleLineCount).sum = 0 := by
  rw [List.sum_eq_zero_iff_forall_eq_nat]
  intro n member
  obtain ⟨line,there,rfl⟩ := List.mem_map.mp member
  exact quiet line there

theorem selectLinesQuiet {columns : List Projection} (plain : ∀ c ∈ columns, c.Plain) :
    ((Pattern.selectLines columns).map tripleLineCount).sum = 0 := by
  refine quietSum fun line member => ?_
  unfold Pattern.selectLines at member
  split at member
  · rw [List.mem_singleton.mp member]
    decide +kernel
  · obtain ⟨c,there,rfl⟩ := List.mem_map.mp member
    exact columnQuiet (plain c there)

theorem endLinesQuiet (word : ∀ name ∈ o.orderVariable, IsWord name.toList) :
    (o.endLines.map tripleLineCount).sum = 0 := by
  refine quietSum fun line member => endingQuiet (sparesEnd breakForeign word line member) ?_
  simp only [QueryOptions.endLines,List.mem_append,List.mem_map,Option.mem_toList] at member
  rcases member with ⟨name,_,rfl⟩ | ⟨n,_,rfl⟩
  · exact endsBehind (by decide) _
  · exact endsBehind (wordEnds (digitsWord n)) _

theorem mainCounts (lined : o.namespaces.Lined) (word : ∀ name ∈ o.orderVariable, IsWord name.toList)
    (columns : ∀ c ∈ outer.projections ++ counts.projections, c.Plain)
    (body : ∀ line ∈ outer.toPattern.lines [], line.Tidy) (blocks : ∀ b ∈ counts.blocks, b.Tidy) :
    ((outer.toPattern.mainLines o counts).map tripleLineCount).sum =
      (writtenTriples (outer.toPattern.lines [])).length +
        (counts.blocks.map fun b => (writtenTriples b.body).length).sum + countedIn (outer.remarks counts) := by
  have own : ((outer.toPattern.bodyLines o.namespaces).map tripleLineCount).sum =
      (writtenTriples (outer.toPattern.lines [])).length + countedIn (remarks (outer.toPattern.lines [])) := by
    have counted := linesCount lined indentsSame body
    rwa [List.map_id] at counted
  have fixed : tripleLineCount [] = 0 ∧ tripleLineCount "SELECT DISTINCT".toList = 0 ∧
      tripleLineCount "WHERE \x7b".toList = 0 ∧ tripleLineCount "\x7d".toList = 0 := by decide +kernel
  simp only [Pattern.mainLines,List.map_cons,List.map_append,List.sum_cons,List.sum_append,fixed,
    selectLinesQuiet columns,endLinesQuiet word,addedCounts,own,blocksCount lined blocks,SelectPattern.remarks,
    countedAppend]
  omega

theorem headerOpens (g : SelectionGraph) (full : Bool) : ∀ line ∈ g.headerLines full, line.head? = some '#' := by
  simp only [SelectionGraph.headerLines,List.forall_mem_cons]
  refine ⟨?_,?_,?_,?_,List.forall_mem_nil _⟩
  · simp
  · simp
  · split <;> simp
  · split <;> simp

theorem headerQuiet (title : ∀ id ∈ g.central, Unbroken id.toList) :
    ((g.headerLines full).map tripleLineCount).sum = 0 :=
  quietSum fun line member => commentQuiet (headerOpens g full line member) (headerAbove title member).1

theorem declarationsQuiet (lined : namespaces.Lined) {entries : List NamespaceEntry}
    (listed : ∀ e ∈ entries, e ∈ namespaces.entries) :
    ((entries.map fun e => (NamespaceTable.declaration e).toList).map tripleLineCount).sum = 0 := by
  refine quietSum fun line member => ?_
  obtain ⟨e,there,rfl⟩ := List.mem_map.mp member
  obtain ⟨label,iri⟩ := lined e (listed e there)
  refine endingQuiet (declarationAbove label iri).1 ?_
  rw [declarationText]
  exact endsBehind (endsBehind (endsBehind (endsBehind (by decide) _) _) _) _

theorem writtenRecords (made : g.pattern full = .ok outer) :
    (writtenTriples (outer.toPattern.lines [])).length = outer.records.keys.length := by
  refine List.Perm.length_eq ((List.perm_ext_iff_of_nodup (writtenOnce _ _) (patternRecords made)).mpr fun t => ?_)
  rw [Pattern.writtenLines,← (patternSourced made).recorded t,Table.containsIff]
  simp

def IsNote (text : String) : Prop := text.toList.head? = some '#' ∧ Lined text

theorem transitionLined {source target : String} (first : Lined source) (second : Lined target) (arrow : Arrow) :
    IsNote (transitionComment source arrow.label target) := by
  refine ⟨commentOpens _ _ _,?_⟩
  unfold Lined transitionComment
  simp only [String.toList_append]
  refine unbrokenAppend (unbrokenAppend (unbrokenAppend (unbrokenAppend (unbrokenAppend ?_ first) ?_) ?_) ?_) second
  · decide
  · decide
  · cases arrow <;> decide
  · decide

theorem centralLined {name : String} (lined : Lined name) : IsNote (centralComment name) := by
  refine ⟨centralOpens name,?_⟩
  unfold Lined centralComment
  simp only [String.toList_append]
  exact unbrokenAppend (unbrokenAppend (by decide) lined) (by decide)

theorem saidLined (names : ∀ n ∈ g.nodes, Lined n.name) {line : Line} (said : g.Says line) :
    ∀ text ∈ line.remark?, IsNote text := by
  cases said with
  | note depth remark =>
      obtain ⟨arrow,m,first,n,second,rfl⟩ := remark
      rintro _ ⟨⟩
      exact transitionLined (names m first) (names n second) arrow
  | @marker n member =>
      rintro _ ⟨⟩
      exact centralLined (names n member)
  | triple depth asked => exact fun _ none => nomatch none
  | blank => exact fun _ none => nomatch none
  | opening scope => exact fun _ none => nomatch none
  | closing scope => exact fun _ none => nomatch none

theorem remarkRename (names : Renaming) (line : Line) : (line.rename names).remark? = line.remark? := by
  cases line <;> rfl

theorem countNameLined (names : ∀ n ∈ g.nodes, Lined n.name) (id : String) : Lined ((g.nameOf id).getD "") := by
  cases found : g.nameOf id with
  | none => exact List.forall_mem_nil _
  | some name =>
      obtain ⟨n,member,rfl⟩ := nameOfNode found
      exact names n member

theorem remarksLined (names : ∀ n ∈ g.nodes, Lined n.name) (done : g.parts o = .ok (outer,counts)) :
    ∀ text ∈ outer.remarks counts, IsNote text := by
  obtain ⟨made,counted⟩ := partsDone done
  intro text member
  have part : ∀ ids, ∀ n ∈ (g.restrict ids).nodes, Lined n.name := fun ids n there =>
    names n (List.mem_filter.mp there).1
  rcases List.mem_append.mp member with own | block
  · obtain ⟨line,there,remark⟩ := List.mem_filterMap.mp own
    exact saidLined (part _) (Pattern.linesSaid (patternSourced made) [] line there) text remark
  · obtain ⟨b,block,inside⟩ := List.mem_flatMap.mp block
    rcases List.mem_append.mp inside with comment | body
    · obtain ⟨n,there,id,rfl⟩ := blockComment counted block (Option.mem_toList.mp comment)
      exact transitionLined (names n there) (countNameLined names id) _
    · obtain ⟨line,there,remark⟩ := List.mem_filterMap.mp body
      obtain ⟨ids,id,source,_,_,said,rfl⟩ := blockSaid (patternSelected made) counted block there
      rw [remarkRename] at remark
      have inner : ∀ n ∈ ((g.restrict ids).withCentral id).nodes, Lined n.name := part ids
      exact saidLined inner said text remark

theorem remarksQuiet (names : ∀ n ∈ g.nodes, Lined n.name) (done : g.parts o = .ok (outer,counts)) :
    ∀ text ∈ outer.remarks counts, tripleLineCount text.toList = 0 := by
  intro text member
  obtain ⟨opens,lined⟩ := remarksLined names done text member
  exact commentQuiet opens lined

theorem spacedLined {text : String} (spaced : ∀ c ∈ text.toList, c = ' ' ∨ isBlank c = false) : Lined text := by
  intro c member
  rcases spaced c member with rfl | visible
  · decide
  · simp only [isBlank,isBreak,Bool.or_eq_false_iff,Bool.and_eq_false_iff,decide_eq_false_iff_not,
      beq_eq_false_iff_ne] at visible ⊢
    omega

theorem classIriLined {token : String} (lined : Lined token) : Lined (classIri token) := by
  unfold classIri splitInverse
  split
  · next rest opening =>
    intro c member
    rw [String.toList_ofList] at member
    exact lined c (opening ▸ List.mem_cons_of_mem _ member)
  · exact lined

theorem compiledCounts {check : Check} {text : List Char} (compiled : g.compile check o = .ok text)
    (title : ∀ id ∈ g.central, Lined id) (lined : o.namespaces.Lined) (spelled : g.Spelled Lined)
    (word : ∀ name ∈ o.orderVariable, IsWord name.toList) : ∃ outer counts, g.parts o = .ok (outer,counts) ∧
      tripleLineCount text = outer.tripleTotal counts + countedIn (outer.remarks counts) := by
  obtain ⟨outer,counts,done,rfl⟩ := compiledLines compiled
  obtain ⟨made,_⟩ := partsDone done
  obtain ⟨body,blocks⟩ := partsTidy spelled done
  have records : (writtenTriples (outer.toPattern.lines [])).length = outer.records.keys.length := writtenRecords made
  have declared : ∀ e ∈ outer.declared counts o.namespaces, e ∈ o.namespaces.entries := fun e member =>
    (List.mem_filter.mp member).1
  refine ⟨outer,counts,done,?_⟩
  rw [countedJoined,List.map_append,List.map_append,List.sum_append,List.sum_append,headerQuiet title,
    declarationsQuiet lined declared,
    mainCounts lined word (fun c member => (columnsNamed done c member).1) body blocks,records,
    SelectPattern.tripleTotal]
  omega

/-- The lines counted in a text are one for each triple of its pattern and one for each that a count writes, just if
no comment has a triple line behind a break; so it is for every selection that was read. -/
theorem triplesCountedIff {settings : QueryOptions.Settings} (options : QueryOptions.ofSettings settings = .ok o)
    {check : Check} {text : List Char} (compiled : g.compile check o = .ok text) (title : ∀ id ∈ g.central, Lined id)
    (namespaces : ∀ e ∈ o.namespaces.entries, Lined e.label ∧ Lined e.iri)
    (tokens : ∀ n ∈ g.nodes, ∀ token ∈ n.path, Lined token) (bridges : ∀ e ∈ g.edges, Lined e.bridgePredicate) :
    ∃ outer counts, g.parts o = .ok (outer,counts) ∧ outer.records.keys.Nodup ∧
      (tripleLineCount text = outer.tripleTotal counts ↔
        ∀ remark ∈ outer.remarks counts, tripleLineCount remark.toList = 0) ∧
      ∀ paths selection model, PathModel.ofValue paths = .ok model → SelectionGraph.ofValue model selection = .ok g →
        tripleLineCount text = outer.tripleTotal counts := by
  have spelled : g.Spelled Lined :=
    ⟨fun n member token there => classIriLined (tokens n member token there),
      fun e member => classIriLined (bridges e member)⟩
  obtain ⟨outer,counts,done,count⟩ := compiledCounts compiled title namespaces spelled (orderVariableWord options)
  have exactly : tripleLineCount text = outer.tripleTotal counts ↔
      ∀ remark ∈ outer.remarks counts, tripleLineCount remark.toList = 0 := by
    rw [← List.forall_mem_map (P := (· = 0)),← List.sum_eq_zero_iff_forall_eq_nat,count,countedIn]
    omega
  refine ⟨outer,counts,done,patternRecords (partsDone done).1,exactly,fun paths selection model modelled read => ?_⟩
  have names : ∀ n ∈ g.nodes, Lined n.name := fun n member => spacedLined (selectionNamesSpaced modelled read n member)
  exact exactly.mpr (remarksQuiet names done)

theorem ownFieldTriplesCounted : ∃ text, ownFieldCounts.compile Grammar.validate .standard = .ok text ∧ tripleLineCount text = 3 := by
  have options : QueryOptions.ofSettings QueryOptions.Settings.unset = .ok QueryOptions.standard := by decide +kernel
  have evaluated : (ownFieldCounts.compile Grammar.validate .standard).map (fun _ => ()) = .ok () := by decide +kernel
  have total : (ownFieldCounts.parts .standard).map (fun parts => (parts.1.tripleTotal parts.2,
      decide (∀ remark ∈ parts.1.remarks parts.2, tripleLineCount remark.toList = 0))) = .ok (3,true) := by
    decide +kernel
  obtain ⟨text,compiled,_⟩ := mapOk evaluated
  obtain ⟨outer,counts,done,_,exactly,_⟩ := triplesCountedIff options compiled (by decide) (by decide +kernel)
    (by decide +kernel) (by decide +kernel)
  rw [done] at total
  obtain ⟨all,quiet⟩ := Prod.mk.inj (Except.ok.inj total)
  exact ⟨text,compiled,(exactly.mpr (of_decide_eq_true quiet)).trans all⟩

def tornNode : String := "x\n?a <urn:b> <urn:c> ."

def tornNameGraph : SelectionGraph :=
  { nodes := [⟨"y","y",some ⟨"y","",false,.field,"",none,["urn:A"]⟩⟩,
      ⟨tornNode," ",some ⟨tornNode,"",false,.field,"",none,["urn:A","urn:p","urn:B"]⟩⟩]
    edges := [⟨"y",tornNode,.null,false⟩]
    central := none
    count := [] }

theorem tornNameMiscounted :
    (tornNameGraph.compile Grammar.validate .standard).map tripleLineCount = .ok 4 ∧
    (tornNameGraph.parts .standard).map (fun parts => parts.1.tripleTotal parts.2) = .ok 3 := by
  decide +kernel

end PathQuery
