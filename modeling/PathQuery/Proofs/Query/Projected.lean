import PathQuery.Grammar.Goal
import PathQuery.Proofs.Count.Aliases
import PathQuery.Proofs.Query.Characters
import PathQuery.Query.Compile
import PathQuery.Query.Reading

/-! The columns read back from the text of a query. Nothing above them reads as their head and none of them reads
as the head of the body, so the scan finds each, and on each line the name is the last variable. -/
namespace PathQuery
open Query

theorem lastVariableNone {s : List Char} (plain : '?' ∉ s) : lastVariable s = none := by
  induction s with
  | nil => rfl
  | cons c rest ih =>
      have other : c ≠ '?' := fun same => plain (by simp [same])
      simp [lastVariable,ih fun member => plain (List.mem_cons_of_mem _ member),other]

structure IsColumnName (name : List Char) : Prop where
  word : IsWord name
  opens : name.head?.any Char.isLower = true

theorem variableChar {c : Char} (word : QueryOptions.isVariableChar c = true) : Text.isWordChar c = true := by
  rcases Bool.or_eq_true_iff.mp word with letter | mark
  · simp [Text.isWordChar,letter]
  · simp [Text.isWordChar,mark]

theorem lastVariableOf {name tail : List Char} (column : IsColumnName name) (stop : Stops Text.isWordChar tail)
    (plain : '?' ∉ tail) (front : List Char) : lastVariable (front ++ '?' :: (name ++ tail)) = some name := by
  have later : '?' ∉ name ++ tail := by
    rw [List.mem_append,not_or]
    exact ⟨wordLacks column.word (by decide),plain⟩
  have start : (name ++ tail).head?.any isVariableStart = true := by
    cases name with
    | nil => exact absurd rfl column.word.1
    | cons c rest =>
        have small : c.isLower = true := column.opens
        have letter : c.isAlpha = true := letterCode.mpr (.inr (lowerCode.mp small))
        simp [isVariableStart,letter]
  have read : (name ++ tail).takeWhile Text.isWordChar = name :=
    takeWhileRun (fun c member => variableChar (column.word.2 c member)) stop
  induction front with
  | nil =>
      rw [List.nil_append,lastVariable,lastVariableNone later]
      simp only [start,read,beq_self_eq_true,Bool.and_self,if_true]
  | cons c rest ih => rw [List.cons_append,lastVariable,ih]

def columnMark (central : Bool) : List Char := if central then "  # <<<<< central node".toList else []

theorem expressionEnds {c : Projection} (plain : c.Plain) (central : Bool) :
    ∀ d ∈ (c.expression ++ columnMark central).getLast?, Text.isBlank d = false := by
  intro d last
  cases central with
  | true =>
      rw [columnMark,if_pos rfl,List.getLast?_append_of_ne_nil _ (by simp)] at last
      cases last
      decide
  | false =>
      rw [columnMark,if_neg (by simp),List.append_nil,Projection.expression] at last
      cases origin : c.origin with
      | some source =>
          simp only [origin] at last
          rw [List.getLast?_append_of_ne_nil _ (by simp)] at last
          cases last
          decide
      | none =>
          simp only [origin] at last
          rw [show '?' :: c.name.toList = ['?'] ++ c.name.toList from rfl,
            List.getLast?_append_of_ne_nil _ plain.1.1] at last
          exact wordCharVisible (plain.1.2 d (List.mem_of_getLast? last))

theorem expressionOpens (c : Projection) :
    ∃ mark rest, c.expression = mark :: rest ∧ (mark = '?' ∨ mark = '(') := by
  unfold Projection.expression
  split
  · exact ⟨'(',_,rfl,.inr rfl⟩
  · exact ⟨'?',_,rfl,.inl rfl⟩

theorem trimColumn {c : Projection} (plain : c.Plain) :
    Text.trim c.text = c.expression ++ columnMark c.central := by
  have text : c.text = indent c.depth ++ (c.expression ++ columnMark c.central) := by
    rw [Projection.text,List.append_assoc,columnMark]
  rw [text]
  refine trimBetween (indentBlank c.depth) ?_ (expressionEnds plain c.central)
  obtain ⟨mark,rest,opens,same⟩ := expressionOpens c
  intro d head
  rw [opens] at head
  cases head
  rcases same with rfl | rfl <;> decide

theorem expressionBare {c : Projection} (plain : c.Plain) : '#' ∉ c.expression := by
  have word : ∀ {name : List Char}, IsWord name → '#' ∉ name := fun named => wordLacks named (by decide)
  unfold Projection.expression
  split
  · next source given =>
    simp only [List.mem_append,not_or]
    exact ⟨⟨⟨⟨by decide,word (originWord plain given)⟩,by decide⟩,word plain.1⟩,by decide⟩
  · rw [List.mem_cons,not_or]
    exact ⟨by decide,word plain.1⟩

theorem columnCode {c : Projection} (plain : c.Plain) :
    (Text.trim c.text).takeWhile (· != '#') = c.expression ++ (if c.central then "  ".toList else []) := by
  have gap : '#' ∉ (if c.central then "  ".toList else []) := by cases c.central <;> decide
  have inside : ∀ d ∈ c.expression ++ (if c.central then "  ".toList else []), (d != '#') = true := by
    intro d member
    rw [bne_iff_ne]
    rintro rfl
    exact (List.mem_append.mp member).elim (expressionBare plain) gap
  have split : c.expression ++ columnMark c.central = c.expression ++ (if c.central then "  ".toList else []) ++
      (if c.central then "# <<<<< central node".toList else []) := by
    cases c.central <;> simp [columnMark]
  rw [trimColumn plain,split]
  refine takeWhileRun inside ?_
  cases c.central with
  | false => exact fun d none => nomatch none
  | true => exact stopsCons (by decide) _

theorem columnRead {c : Projection} (plain : c.Plain) (opens : c.name.toList.head?.any Char.isLower = true) :
    columnVariable c.text = some c.name.toList := by
  have column : IsColumnName c.name.toList := ⟨plain.1,opens⟩
  have gapStops : Stops Text.isWordChar (if c.central then "  ".toList else []) := by
    cases c.central with
    | false => exact fun d none => nomatch none
    | true => exact stopsCons (by decide) _
  have gapPlain : '?' ∉ (if c.central then "  ".toList else []) := by cases c.central <;> decide
  rw [columnVariable,columnCode plain,Projection.expression]
  cases c.origin with
  | none => exact lastVariableOf column gapStops gapPlain []
  | some source =>
      have stop : Stops Text.isWordChar (')' :: (if c.central then "  ".toList else [])) := stopsCons (by decide) _
      have closed := lastVariableOf column stop (by simp)
        ("(COALESCE(?".toList ++ source.toList ++ ", 0) AS ".toList)
      simp only [List.append_assoc,List.cons_append,List.nil_append] at closed ⊢
      exact closed

theorem openingNoHead {c : Char} (visible : Text.isBlank c = false) (upper : Text.upperChar c = [c]) (other : c ≠ 'S')
    (rest : List Char) : isProjectionHead (c :: rest) = false := by
  obtain ⟨kept,trimmed⟩ := trimStarts (List.forall_mem_nil _) visible rest
  rw [List.nil_append] at trimmed
  rw [isProjectionHead,trimmed,Text.upper,List.flatMap_cons,upper,Bool.eq_false_iff]
  intro same
  exact other (List.cons.inj (eq_of_beq same)).1

theorem notBodyHead {line kept : List Char} {c : Char} (trimmed : Text.trim line = c :: kept)
    (upper : Text.upperChar c = [c]) (other : c ≠ 'W') : isBodyHead line = false := by
  rw [isBodyHead,trimmed,Text.upper,List.flatMap_cons,upper,startsWith,Bool.eq_false_iff]
  intro opens
  have heads := (List.cons_prefix_cons.mp (List.isPrefixOf_iff_prefix.mp opens)).1
  exact other heads.symm

theorem columnNoHead {c : Projection} (plain : c.Plain) : isBodyHead c.text = false := by
  obtain ⟨mark,rest,opens,same⟩ := expressionOpens c
  have trimmed := trimColumn plain
  rw [opens,List.cons_append] at trimmed
  rcases same with rfl | rfl
  · exact notBodyHead trimmed (by decide) (by decide)
  · exact notBodyHead trimmed (by decide) (by decide)

theorem selectRead {columns : List Projection} (plain : ∀ c ∈ columns, c.Plain)
    (opens : ∀ c ∈ columns, c.name.toList.head?.any Char.isLower = true) :
    (Pattern.selectLines columns).filterMap columnVariable = columns.map (·.name.toList) ∧
      ∀ line ∈ Pattern.selectLines columns, isBodyHead line = false := by
  unfold Pattern.selectLines
  split
  · next empty =>
    rw [List.isEmpty_iff.mp empty]
    refine ⟨by decide +kernel,fun line member => ?_⟩
    rw [List.mem_singleton.mp member]
    decide +kernel
  · refine ⟨?_,fun line member => ?_⟩
    · rw [List.filterMap_map,List.filterMap_eq_map_iff_forall_eq_some.mpr]
      exact fun c member => columnRead (plain c member) (opens c member)
    · obtain ⟨c,there,rfl⟩ := List.mem_map.mp member
      exact columnNoHead (plain c there)

theorem projectedBetween {text : List Char} {above columns below : List (List Char)}
    (lines : Text.splitLines text = above ++ "SELECT DISTINCT".toList :: (columns ++ "WHERE \x7b".toList :: below))
    (heads : ∀ line ∈ above, isProjectionHead line = false) (bodies : ∀ line ∈ columns, isBodyHead line = false) :
    projectedVariables text = (columns.filterMap columnVariable).eraseDups := by
  have found : (Text.splitLines text).dropWhile (fun line => !isProjectionHead line) =
      "SELECT DISTINCT".toList :: (columns ++ "WHERE \x7b".toList :: below) := by
    rw [lines,List.dropWhile_append_of_pos fun line member => by simp [heads line member],
      List.dropWhile_cons_of_neg (by decide +kernel)]
  have taken : (columns ++ "WHERE \x7b".toList :: below).takeWhile (fun line => !isBodyHead line) = columns := by
    rw [List.takeWhile_append_of_pos fun line member => by simp [bodies line member],
      List.takeWhile_cons_of_neg (by decide +kernel),List.append_nil]
  unfold projectedVariables
  rw [found,List.drop_one,List.tail_cons]
  simp only
  rw [taken]

variable {g : SelectionGraph} {o : QueryOptions} {outer : SelectPattern} {counts : Counts}

theorem aliasOpens {counted : String} (opens : counted.toList.head?.any Char.isLower = true) (taken : List String) :
    (uniqueAlias (counted ++ "_count") taken).toList.head?.any Char.isLower = true := by
  obtain ⟨n,_,found,_,_⟩ := aliasFound (counted ++ "_count") taken
  rw [found]
  cases n with
  | zero =>
      rw [numbered,String.toList_append]
      exact headAppend opens _
  | succ n =>
      rw [numbered,String.toList_append,String.toList_append,String.toList_append,List.append_assoc,List.append_assoc]
      exact headAppend opens _

theorem countNameOpens (done : g.parts o = .ok (outer,counts)) {c : Projection} (member : c ∈ counts.projections) :
    c.name.toList.head?.any Char.isLower = true := by
  obtain ⟨tallies,same,sources⟩ := talliesSource (partsDone done).2
  rw [show counts = _ from same] at member
  obtain ⟨t,there,source⟩ := columnOfTallies member
  obtain ⟨_,_,_,tally⟩ := sources t there
  have counted := ((patternNodeNamed tally.made).1 _ (Table.findValue tally.counted)).opens
  cases source with
  | raw taken name =>
      rw [name,String.toList_append]
      exact headAppend (aliasOpens counted taken) _
  | coalesced taken name => exact name ▸ aliasOpens counted taken

theorem columnsNamed (done : g.parts o = .ok (outer,counts)) : ∀ c ∈ outer.projections ++ counts.projections,
    c.Plain ∧ c.name.toList.head?.any Char.isLower = true := by
  obtain ⟨made,counted⟩ := partsDone done
  intro c member
  rcases List.mem_append.mp member with member | member
  · obtain ⟨id,selected⟩ := columnSelected made member
    exact ⟨nodeColumnPlain (patternSourced made) c member,
      ((patternNodeNamed made).1 _ (Table.findValue selected)).opens⟩
  · exact ⟨countColumnPlain (patternSelected made) counted c member,countNameOpens done member⟩

theorem headerAbove {full : Bool} (title : ∀ id ∈ g.central, Unbroken id.toList) {line : List Char}
    (member : line ∈ g.headerLines full) : Unbroken line ∧ isProjectionHead line = false := by
  have noted : ∀ {text : List Char}, isProjectionHead ('#' :: text) = false :=
    openingNoHead (by decide) (by decide) (by decide) _
  have central : Unbroken ((g.central.filter (· ≠ "")).getD "(none)").toList := by
    cases given : g.central with
    | none => decide
    | some id =>
        by_cases blank : id = ""
        · subst blank
          decide
        · simpa [Option.filter,blank] using title id given
  simp only [SelectionGraph.headerLines,List.mem_cons,List.not_mem_nil,or_false] at member
  rcases member with rfl | rfl | rfl | rfl
  · exact ⟨unbrokenText (by decide),noted⟩
  · exact ⟨unbrokenAppend (unbrokenText (by decide)) central,noted⟩
  · split
    · exact ⟨unbrokenText (by decide),noted⟩
    · exact ⟨unbrokenAppend (unbrokenText (by decide)) (wordUnbroken (digitsWord _)),noted⟩
  · split <;> exact ⟨unbrokenText (by decide),noted⟩

theorem declarationAbove {e : NamespaceEntry} (label : Unbroken e.label.toList) (iri : Unbroken e.iri.toList) :
    Unbroken (NamespaceTable.declaration e).toList ∧
      isProjectionHead (NamespaceTable.declaration e).toList = false := by
  have text : (NamespaceTable.declaration e).toList =
      'P' :: ("REFIX ".toList ++ e.label.toList ++ ": <".toList ++ e.iri.toList ++ ">".toList) := by
    simp [NamespaceTable.declaration]
  refine ⟨sparesDeclaration breakForeign label iri,?_⟩
  rw [text]
  exact openingNoHead (by decide) (by decide) (by decide) _

theorem columnUnbroken {c : Projection} (plain : c.Plain) : Unbroken c.text := sparesColumn breakForeign plain

theorem selectUnbroken {columns : List Projection} (plain : ∀ c ∈ columns, c.Plain) :
    ∀ line ∈ Pattern.selectLines columns, Unbroken line := sparesColumns breakForeign plain

theorem compiledLines {check : Check} {text : List Char} (compiled : g.compile check o = .ok text) :
    ∃ outer counts, g.parts o = .ok (outer,counts) ∧
      text = Text.joinLines (g.headerLines (g.fullPrefixes o) ++
        ((outer.declared counts o.namespaces).map (fun e => (NamespaceTable.declaration e).toList) ++
          outer.toPattern.mainLines o counts)) := by
  obtain ⟨query,written,checked⟩ := bindOk.mp compiled
  obtain ⟨_,_,same⟩ := bindOk.mp checked
  obtain ⟨outer,counts,done,rfl⟩ := queryDeclares written
  refine ⟨outer,counts,done,?_⟩
  have header : g.headerLines (g.fullPrefixes o) ≠ [] := List.cons_ne_nil _ _
  have query : (outer.declared counts o.namespaces).map (fun e => (NamespaceTable.declaration e).toList) ++
      outer.toPattern.mainLines o counts ≠ [] := List.append_ne_nil_of_right_ne_nil _ (List.cons_ne_nil _ _)
  rw [joinAppend header query]
  exact (Except.ok.inj same).symm

theorem projectedJoined {above columns body : List (List Char)}
    (heads : ∀ line ∈ above, Unbroken line ∧ isProjectionHead line = false)
    (bodies : ∀ line ∈ columns, Unbroken line ∧ isBodyHead line = false) (filled : body ≠ []) :
    projectedVariables (Text.joinLines
      (above ++ "SELECT DISTINCT".toList :: (columns ++ "WHERE \x7b".toList :: body))) =
        (columns.filterMap columnVariable).eraseDups := by
  have whole : ∀ line ∈ above ++ "SELECT DISTINCT".toList :: (columns ++ ["WHERE \x7b".toList]), Unbroken line := by
    intro line member
    rcases List.mem_append.mp member with member | member
    · exact (heads line member).1
    · rcases List.mem_cons.mp member with rfl | member
      · decide
      · rcases List.mem_append.mp member with member | last
        · exact (bodies line member).1
        · rw [List.mem_singleton.mp last]
          decide
  have split := splitJoined whole filled
  simp only [List.append_assoc,List.cons_append,List.nil_append] at split
  exact projectedBetween split (fun line member => (heads line member).2) fun line member => (bodies line member).2

theorem columnsReadBack {check : Check} {text : List Char} (compiled : g.compile check o = .ok text)
    (title : ∀ id ∈ g.central, Unbroken id.toList)
    (namespaces : ∀ e ∈ o.namespaces.entries, Unbroken e.label.toList ∧ Unbroken e.iri.toList) :
    ∃ outer counts aliases, g.parts o = .ok (outer,counts) ∧
      projectedVariables text = (outer.projections ++ counts.projections).map (·.name.toList) ∧
      counts.blocks.map (·.raw) = aliases.map rawOf ∧
      counts.projections.map (·.name) = if o.includeZeroCounts then aliases else aliases.map rawOf := by
  obtain ⟨outer,counts,done,rfl⟩ := compiledLines compiled
  obtain ⟨aliases,named⟩ := partsNamed done
  refine ⟨outer,counts,aliases,done,?_,named.raws,named.columns⟩
  have plain := fun c member => (columnsNamed done c member).1
  obtain ⟨read,bodies⟩ := selectRead plain fun c member => (columnsNamed done c member).2
  have heads : ∀ line ∈ g.headerLines (g.fullPrefixes o) ++
      ((outer.declared counts o.namespaces).map (fun e => (NamespaceTable.declaration e).toList) ++ [[]]),
      Unbroken line ∧ isProjectionHead line = false := by
    intro line member
    rcases List.mem_append.mp member with header | member
    · exact headerAbove title header
    · rcases List.mem_append.mp member with declared | blank
      · obtain ⟨e,there,rfl⟩ := List.mem_map.mp declared
        obtain ⟨label,iri⟩ := namespaces e (List.mem_filter.mp there).1
        exact declarationAbove label iri
      · rw [List.mem_singleton.mp blank]
        exact ⟨by decide,by decide⟩
  have filled : (counts.blocks.map (CountBlock.lines o.namespaces)).foldl addBlock
      (outer.toPattern.bodyLines o.namespaces) ++ "\x7d".toList :: o.endLines ≠ [] := by simp
  have found := projectedJoined heads
    (fun line member => ⟨selectUnbroken plain line member,bodies line member⟩) filled
  have once : ((outer.projections ++ counts.projections).map (·.name.toList)).Nodup := by
    have names := (columnsApart done).map fun _ _ => String.toList_inj.mp
    rwa [List.map_map] at names
  rw [read,eraseDupsOnce once] at found
  rw [← found,Pattern.mainLines]
  simp only [List.append_assoc,List.cons_append,List.nil_append]

theorem alikeCountsReadBack : ∃ text,
    alikeCounts.compile Grammar.validate { QueryOptions.standard with includeZeroCounts := true } = .ok text ∧
    projectedVariables text = ["a_root","b_node_count","b_node_count_2"].map String.toList := by
  have evaluated : (alikeCounts.compile Grammar.validate
      { QueryOptions.standard with includeZeroCounts := true }).map (fun _ => ()) = .ok () := by decide +kernel
  have names : (alikeCounts.parts { QueryOptions.standard with includeZeroCounts := true }).map (fun parts =>
      (parts.1.projections ++ parts.2.projections).map (·.name)) = .ok ["a_root","b_node_count","b_node_count_2"] := by
    decide +kernel
  obtain ⟨text,compiled,_⟩ := mapOk evaluated
  obtain ⟨outer,counts,_,done,read,_⟩ := columnsReadBack compiled (by decide +kernel) (by decide +kernel)
  rw [done] at names
  refine ⟨text,compiled,read.trans ?_⟩
  rw [← Except.ok.inj names,List.map_map]
  rfl

end PathQuery
