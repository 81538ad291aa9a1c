import PathQuery.Proofs.Grammar.Limit
import PathQuery.Proofs.Query.TripleLines
import PathQuery.Tool

/-! Lines that do not read as a limit. Each line of a query that was not given one opens with another word or mark, as
long as nothing that it writes out goes on on a line of its own. -/
namespace PathQuery
open Grammar Query Text

def IsLimitLine (line : List Char) : Prop := fulfils limitGoals line = true

instance (line : List Char) : Decidable (IsLimitLine line) := inferInstanceAs (Decidable (_ = true))

structure Unlimited (line : List Char) : Prop where
  whole : Unbroken line
  other : ¬ IsLimitLine line

def OpensPlainly (line : List Char) : Prop := ∃ c ∈ line.head?, c = '#' ∨ isSpace c = false ∧ isFormOf 'L' c = false

instance (line : List Char) : Decidable (OpensPlainly line) :=
  decidable_of_iff (line.head?.any (fun c => c == '#' || !isSpace c && !isFormOf 'L' c) = true)
    (by simp [OpensPlainly,Option.any_eq_true])

theorem opensBefore {front : List Char} (opens : OpensPlainly front) (ending : List Char) :
    OpensPlainly (front ++ ending) := by
  obtain ⟨c,first,plain⟩ := opens
  obtain ⟨rest,rfl⟩ := List.head?_eq_some_iff.mp first
  exact ⟨c,rfl,plain⟩

theorem nothingUnlimited : Unlimited [] := ⟨List.forall_mem_nil _,by rw [IsLimitLine,fulfilsNil]; decide⟩

theorem limitNotOpened {c : Char} (visible : isSpace c = false) (other : isFormOf 'L' c = false) (mark : c ≠ '#')
    (rest : List Char) : fulfils limitGoals (c :: rest) = false := by
  have shown : skip (c :: rest) = c :: rest := by simp [skip,skipFrom,visible,mark]
  have unread : readKeyword .LIMIT (c :: rest) = none := by
    simp [readKeyword,Keyword.capitals,readLetters,other]
  refine fulfilsStuck (by simp [shown]) ?_
  rw [shown,bottomTakes (.inr rfl),unread]
  rfl

theorem spacedUnlimited {margin line : List Char} (spaces : ∀ c ∈ margin, c = ' ') (whole : Unbroken line)
    (opens : OpensPlainly line) : Unlimited (margin ++ line) := by
  refine ⟨unbrokenAppend (marginUnbroken spaces) whole,?_⟩
  have blank : ∀ c ∈ margin, isSpace c = true := fun c member => by rw [spaces c member]; rfl
  obtain ⟨c,first,plain⟩ := opens
  obtain ⟨rest,rfl⟩ := List.head?_eq_some_iff.mp first
  rw [IsLimitLine,fulfilsMargin blank,Bool.not_eq_true]
  by_cases mark : c = '#'
  · -- The comment takes up the whole line, so there is nothing left to read as a limit.
    subst mark
    have line : '\n' ∉ rest := fun member =>
      absurd (whole '\n' (List.mem_cons_of_mem _ member)) (by decide)
    have skipped := fulfilsComment line (s := []) nofun limitGoals
    rw [List.append_nil,fulfilsNil] at skipped
    exact skipped
  · obtain ⟨visible,other⟩ := plain.resolve_left mark
    exact limitNotOpened visible other mark rest

theorem openingUnlimited {line : List Char} (whole : Unbroken line) (opens : OpensPlainly line) : Unlimited line :=
  @spacedUnlimited [] line (List.forall_mem_nil _) whole opens

theorem splitMember {lines : List (List Char)} (whole : ∀ line ∈ lines, Unbroken line) {line : List Char}
    (member : line ∈ splitLines (joinLines lines)) : line ∈ lines := by
  rcases List.eq_nil_or_concat lines with rfl | ⟨front,last,rfl⟩
  · nomatch member
  · rw [List.concat_eq_append] at whole member ⊢
    rw [splitJoined (fun other there => whole other (List.mem_append_left _ there)) (by simp)] at member
    rcases List.mem_append.mp member with there | there
    · exact List.mem_append_left _ there
    · by_cases empty : last = []
      · subst empty
        nomatch there
      · rw [joinLines,splitLinesOfPlain (whole last (by simp)) empty] at there
        exact List.mem_append_right _ there

theorem splitUnlimited {lines : List (List Char)} (all : ∀ line ∈ lines, Unlimited line) :
    ∀ line ∈ splitLines (joinLines lines), ¬ IsLimitLine line := fun line member =>
  (all line (splitMember (fun other there => (all other there).whole) member)).other

variable {namespaces : NamespaceTable} {margin : List Char}

theorem noteUnlimited (spaces : ∀ c ∈ margin, c = ' ') {text : String} (note : IsNote text) :
    Unlimited (margin ++ text.toList) :=
  spacedUnlimited spaces note.2 ⟨'#',note.1,.inl rfl⟩

theorem lineUnlimited (lined : namespaces.Lined) {layout : List Char → List Char} (indents : Indents layout margin)
    {line : Line} (tidy : line.Tidy) (notes : ∀ text ∈ line.remark?, IsNote text) :
    Unlimited (layout (line.text namespaces)) := by
  rcases lineLaid namespaces indents (tidyTells tidy) with ⟨_,laid⟩ | ⟨gap,code,spaces,laid,reads⟩
  · rw [laid]
    exact nothingUnlimited
  · rw [laid]
    cases reads with
    | note depth text => exact noteUnlimited spaces (notes text rfl)
    | marker text => exact noteUnlimited spaces (notes text rfl)
    | opening scope => exact spacedUnlimited spaces (by decide) (by decide)
    | closing scope => exact spacedUnlimited spaces (by decide) (by decide)
    | triple depth t =>
        obtain ⟨rest,text⟩ := anchoredOpens namespaces (formedAnchored tidy)
        exact spacedUnlimited spaces (tripleUnbroken lined tidy) ⟨'?',by simp [text],.inr (by decide)⟩

theorem linesUnlimited (lined : namespaces.Lined) {layout : List Char → List Char} (indents : Indents layout margin)
    {lines : List Line} (tidy : ∀ line ∈ lines, line.Tidy) (notes : ∀ text ∈ remarks lines, IsNote text) :
    ∀ line ∈ (lines.map (Line.text namespaces)).map layout, Unlimited line := by
  simp only [List.forall_mem_map]
  exact fun line there => lineUnlimited lined indents (tidy line there)
    fun text remark => notes text (List.mem_filterMap.mpr ⟨line,there,remark⟩)

variable {b : CountBlock}

theorem commentUnlimited (spaces : ∀ c ∈ margin, c = ' ') (notes : ∀ text ∈ b.comment, IsNote text) :
    ∀ line ∈ ((b.comment.map (·.toList)).filter (· ≠ [])).toList.map (margin ++ ·), Unlimited line := by
  simp only [List.forall_mem_map,Option.mem_toList]
  intro line shown
  obtain ⟨text,given,rfl⟩ := Option.map_eq_some_iff.mp (Option.filter_eq_some_iff.mp shown).1
  exact noteUnlimited spaces (notes text given)

theorem groupUnlimited (tidy : b.Tidy) (spaces : ∀ c ∈ margin, c = ' ') :
    ∀ line ∈ (b.groupBy.filter (· ≠ [])).toList.map (margin ++ ·), Unlimited line := by
  simp only [List.forall_mem_map,Option.mem_toList]
  intro line shown
  obtain ⟨parent,given,rfl⟩ := Option.map_eq_some_iff.mp (Option.filter_eq_some_iff.mp shown).1
  exact spacedUnlimited spaces (unbrokenAppend (by decide) (wordUnbroken (tidy.parent parent given)))
    (opensBefore (by decide) _)

theorem selectUnlimited (tidy : b.Tidy) (spaces : ∀ c ∈ margin, c = ' ') : Unlimited (margin ++ b.select) := by
  refine spacedUnlimited spaces (blockSelectUnbroken tidy) ?_
  unfold CountBlock.select
  simp only [List.append_assoc]
  exact opensBefore (by decide) _

theorem blockUnlimited (lined : namespaces.Lined) (tidy : b.Tidy) (notes : ∀ text ∈ b.remarks, IsNote text) :
    ∀ line ∈ b.lines namespaces, Unlimited line := by
  have two : ∀ c ∈ "  ".toList, c = ' ' := by simp
  have inner := innerSpaces b.optional
  have wide := List.forall_mem_append.mpr ⟨inner,two⟩
  have scope : ∀ {ending : List Char}, Unbroken ending → OpensPlainly ending →
      ∀ line ∈ (if b.optional then ["  ".toList ++ ending] else []), Unlimited line := by
    intro ending whole opens line member
    split at member
    · exact List.mem_singleton.mp member ▸ spacedUnlimited two whole opens
    · nomatch member
  have fixed : ∀ {word : List Char}, Unbroken word → OpensPlainly word →
      Unlimited ((if b.optional then "    ".toList else "  ".toList) ++ word) := spacedUnlimited inner
  have deep : ∀ {word : List Char}, Unbroken word → OpensPlainly word →
      Unlimited ((if b.optional then "    ".toList else "  ".toList) ++ ("  ".toList ++ word)) := by
    intro word whole opens
    rw [← List.append_assoc]
    exact spacedUnlimited wide whole opens
  have select := selectUnlimited tidy (List.forall_mem_append.mpr ⟨inner,gapSpaces b.optional⟩)
  have comment := commentUnlimited two fun text given =>
    notes text (List.mem_append_left _ (Option.mem_toList.mpr given))
  have body := linesUnlimited lined (indentsBy inner) tidy.body fun text there => notes text (List.mem_append_right _ there)
  have group := groupUnlimited tidy wide
  unfold CountBlock.lines blockLines
  simp only [List.forall_mem_append,List.forall_mem_cons]
  refine ⟨⟨⟨⟨⟨⟨⟨comment,scope ?_ ?_⟩,fixed ?_ ?_,select,@deep "WHERE \x7b".toList ?_ ?_,nofun⟩,body⟩,
    @deep ['\x7d'] ?_ ?_,nofun⟩,group⟩,fixed ?_ ?_,nofun⟩,scope ?_ ?_⟩ <;> decide

theorem addedUnlimited {blocks : List (List (List Char))} {lines : List (List Char)}
    (own : ∀ line ∈ lines, Unlimited line) (each : ∀ block ∈ blocks, ∀ line ∈ block, Unlimited line) :
    ∀ line ∈ blocks.foldl addBlock lines, Unlimited line := by
  induction blocks generalizing lines with
  | nil => exact own
  | cons block rest ih =>
      refine ih ?_ fun other there => each other (List.mem_cons_of_mem _ there)
      have added := each block (by simp)
      unfold addBlock
      split
      · exact added
      · exact List.forall_mem_append.mpr ⟨own,List.forall_mem_cons.mpr ⟨nothingUnlimited,added⟩⟩

structure Request.Lined (r : Request) : Prop where
  title : ∀ id ∈ r.selection.central, PathQuery.Lined id
  names : ∀ n ∈ r.selection.nodes, PathQuery.Lined n.name
  tokens : ∀ n ∈ r.selection.nodes, ∀ token ∈ n.path, PathQuery.Lined token
  bridges : ∀ e ∈ r.selection.edges, PathQuery.Lined e.bridgePredicate
  namespaces : r.options.namespaces.Lined
  order : ∀ name ∈ r.options.orderVariable, PathQuery.Lined name

variable {g : SelectionGraph} {o : QueryOptions} {outer : SelectPattern} {counts : Counts}

theorem headerUnlimited (title : ∀ id ∈ g.central, Lined id) {full : Bool} :
    ∀ line ∈ g.headerLines full, Unlimited line := fun line member =>
  openingUnlimited (headerAbove title member).1 ⟨'#',headerOpens g full line member,.inl rfl⟩

theorem declarationsUnlimited (lined : namespaces.Lined) {entries : List NamespaceEntry}
    (listed : ∀ e ∈ entries, e ∈ namespaces.entries) :
    ∀ line ∈ entries.map fun e => (NamespaceTable.declaration e).toList, Unlimited line := by
  simp only [List.forall_mem_map]
  intro e there
  obtain ⟨label,iri⟩ := lined e (listed e there)
  refine openingUnlimited (declarationAbove label iri).1 ?_
  rw [declarationText]
  exact opensBefore (by decide) _

theorem columnUnlimited {c : Projection} (plain : c.Plain) : Unlimited c.text := by
  have whole := columnUnbroken plain
  obtain ⟨mark,rest,shown,same⟩ := expressionOpens c
  have opens : OpensPlainly [mark] := by rcases same with rfl | rfl <;> decide
  unfold Projection.text at whole ⊢
  rw [List.append_assoc] at whole ⊢
  refine spacedUnlimited (fun c member => (List.mem_replicate.mp member).2)
    (fun c member => whole c (List.mem_append_right _ member)) ?_
  rw [shown]
  exact opensBefore opens _

theorem selectLinesUnlimited {columns : List Projection} (plain : ∀ c ∈ columns, c.Plain) :
    ∀ line ∈ Pattern.selectLines columns, Unlimited line := by
  unfold Pattern.selectLines
  split
  · have every : Unlimited ("  ".toList ++ ['*']) := spacedUnlimited (by simp) (by decide) (by decide)
    simpa using every
  · simpa only [List.forall_mem_map] using fun c there => columnUnlimited (plain c there)

theorem endLinesUnlimited (order : ∀ name ∈ o.orderVariable, Lined name) (free : o.limit = none) :
    ∀ line ∈ o.endLines, Unlimited line := by
  unfold QueryOptions.endLines
  rw [free]
  simp only [List.forall_mem_append,List.forall_mem_map,Option.mem_toList]
  refine ⟨fun name given => ?_,nofun⟩
  have whole : Unbroken o.orderDirection.label.toList := by cases o.orderDirection <;> decide
  refine openingUnlimited ?_ ?_
  · exact unbrokenAppend (unbrokenAppend (unbrokenAppend (unbrokenAppend (by decide) whole) (by decide))
      (order name given)) (by decide)
  · simp only [List.append_assoc]
    exact opensBefore (by decide) _

theorem mainUnlimited (lined : o.namespaces.Lined) (order : ∀ name ∈ o.orderVariable, Lined name)
    (free : o.limit = none) (columns : ∀ c ∈ outer.projections ++ counts.projections, c.Plain)
    (body : ∀ line ∈ outer.toPattern.lines [], line.Tidy) (blocks : ∀ b ∈ counts.blocks, b.Tidy)
    (notes : ∀ text ∈ outer.remarks counts, IsNote text) :
    ∀ line ∈ outer.toPattern.mainLines o counts, Unlimited line := by
  obtain ⟨own,others⟩ := List.forall_mem_append.mp notes
  have first : ∀ line ∈ outer.toPattern.bodyLines o.namespaces, Unlimited line := by
    have shown := linesUnlimited lined indentsSame body own
    rwa [List.map_id] at shown
  have added := addedUnlimited first (List.forall_mem_map.mpr fun b there =>
    blockUnlimited lined (blocks b there) fun text inside => others text (List.mem_flatMap.mpr ⟨b,there,inside⟩))
  have fixed : ∀ {word : List Char}, Unbroken word → OpensPlainly word → Unlimited word := openingUnlimited
  simp only [Pattern.mainLines,List.forall_mem_cons,List.forall_mem_append]
  exact ⟨nothingUnlimited,fixed (by decide) (by decide),selectLinesUnlimited columns,fixed (by decide) (by decide),
    added,fixed (by decide) (by decide),endLinesUnlimited order free⟩

theorem compiledUnlimited {r : Request} (lined : r.Lined) {check : Check} {text : List Char}
    (compiled : r.selection.compile check { r.options with limit := none } = .ok text) :
    ∀ line ∈ splitLines text, ¬ IsLimitLine line := by
  obtain ⟨outer,counts,done,rfl⟩ := compiledLines compiled
  have spelled : r.selection.Spelled Lined :=
    ⟨fun n member token there => classIriLined (lined.tokens n member token there),
      fun e member => classIriLined (lined.bridges e member)⟩
  obtain ⟨body,blocks⟩ := partsTidy spelled done
  have main := mainUnlimited (o := { r.options with limit := none }) lined.namespaces lined.order rfl
    (fun c member => (columnsNamed done c member).1) body blocks (remarksLined lined.names done)
  have listed : ∀ e ∈ outer.declared counts r.options.namespaces, e ∈ r.options.namespaces.entries := fun e member =>
    (List.mem_filter.mp member).1
  have declared := declarationsUnlimited lined.namespaces listed
  exact splitUnlimited (List.forall_mem_append.mpr
    ⟨headerUnlimited lined.title,List.forall_mem_append.mpr ⟨declared,main⟩⟩)

end PathQuery
