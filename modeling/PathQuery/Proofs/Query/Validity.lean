import PathQuery.Proofs.Query.Escape
import PathQuery.Proofs.Selection.Names

/-! Every query that is written is a query: the text of a selection whose IRIs and names can be written
is accepted by the grammar, whatever the shape of the selection and the options are. -/
namespace PathQuery
open Grammar

def Passes (lines : List (List Char)) : Prop :=
  ∀ (goals : List Goal) (s : List Char), AtLineEnd s → Ready goals s → Ready goals (below lines ++ s)

theorem passesAddBlock {lines block : List (List Char)} (first : Passes lines) (second : Passes block) :
    Passes (addBlock lines block) := by
  intro goals s done ready
  unfold addBlock
  split
  · exact second goals s done ready
  · rw [belowAppend,belowCons,List.append_assoc,List.cons_append,List.cons_append,List.nil_append]
    exact first _ _ (fun c head => by cases head; rfl) (readyBreak (second goals s done ready))

theorem passesBlocks {lines : List (List Char)} {blocks : List (List (List Char))} (body : Passes lines)
    (each : ∀ block ∈ blocks, Passes block) : Passes (blocks.foldl addBlock lines) := by
  induction blocks generalizing lines with
  | nil => exact body
  | cons block rest ih =>
      exact ih (passesAddBlock body (each block (by simp)))
        fun block member => each block (List.mem_cons_of_mem _ member)

theorem clearBlocks {lines : List (List Char)} {blocks : List (List (List Char))} (body : Clear lines)
    (each : ∀ block ∈ blocks, Clear block) : Clear (blocks.foldl addBlock lines) := by
  induction blocks generalizing lines with
  | nil => exact body
  | cons block rest ih =>
      refine ih ?_ fun block member => each block (List.mem_cons_of_mem _ member)
      unfold addBlock
      split
      · exact each block (by simp)
      · exact clearAppend body (clearCons (by decide) (each block (by simp)))

theorem fulfilsJoin (goals : List Goal) {lines : List (List Char)} (filled : lines ≠ []) :
    fulfils goals (Text.joinLines lines) = fulfils goals (below lines) := by
  cases lines with
  | nil => contradiction
  | cons line rest => rw [joinLinesBelow,belowCons,List.cons_append,fulfilsSpace rfl]

theorem isQueryAround {used : List String} {columns : List Projection} (plain : ∀ p ∈ columns, p.Plain)
    {body : List (List Char)} (passes : Passes body) {o : QueryOptions}
    (word : ∀ name ∈ o.orderVariable, IsWord name.toList) :
    isQuery (Text.joinLines ((NamespaceTable.standard.declarations used).map (·.toList) ++
      [[],"SELECT DISTINCT".toList] ++ Pattern.selectLines columns ++ ["WHERE \x7b".toList] ++ body ++
        ["\x7d".toList] ++ o.endLines)) = true := by
  have inside : Ready [.groupBy,.orderBy,.limit] ('\n' :: '\x7d' :: below o.endLines) :=
    readyBreak (readyClosing (fulfilsEnd word))
  have group := passes _ _ (fun c head => by cases head; rfl) inside
  have text : below ((NamespaceTable.standard.declarations used).map (·.toList) ++
      [[],"SELECT DISTINCT".toList] ++ Pattern.selectLines columns ++ ["WHERE \x7b".toList] ++ body ++
        ["\x7d".toList] ++ o.endLines) =
      below ((NamespaceTable.standard.declarations used).map (·.toList)) ++ '\n' :: '\n' ::
        ("SELECT DISTINCT".toList ++ (below (Pattern.selectLines columns) ++ '\n' ::
          ("WHERE \x7b".toList ++ (below body ++ '\n' :: '\x7d' :: below o.endLines)))) := by
    simp only [belowAppend,belowCons,List.append_assoc,List.cons_append,List.nil_append]
    rfl
  have labels : ∀ e ∈ NamespaceTable.standard.entries.filter fun e => used.contains e.label,
      IsLabel e.label.toList := fun e member => standardLabels e (List.mem_filter.mp member).1
  have iris : ∀ e ∈ NamespaceTable.standard.entries.filter fun e => used.contains e.label,
      IriText e.iri := fun e member => standardIris e (List.mem_filter.mp member).1
  have whole : fulfils queryGoals (below ((NamespaceTable.standard.declarations used).map (·.toList) ++
      [[],"SELECT DISTINCT".toList] ++ Pattern.selectLines columns ++ ["WHERE \x7b".toList] ++ body ++
        ["\x7d".toList] ++ o.endLines)) = true := by
    rw [text]
    refine (fulfilsDeclarations labels iris _ _).trans ?_
    rw [fulfilsSpace rfl,fulfilsSpace rfl]
    refine (fulfilsOuterSelect (belowAtLineEnd _ fun c head => by cases head; rfl)).trans ?_
    rw [fulfilsColumns plain]
    exact group .body (.inl rfl)
  rw [isQuery,fulfilsJoin]
  · exact whole
  · simp

variable {g : SelectionGraph}

theorem queryOfPattern {outerGraph : SelectionGraph} (writable : outerGraph.Writable) {outer : SelectPattern}
    (sourced : outer.toPattern.Sourced outerGraph) {o : QueryOptions} (standard : o.namespaces = .standard)
    (word : ∀ name ∈ o.orderVariable, IsWord name.toList) {counts : Counts}
    (columns : ∀ p ∈ counts.projections, p.Plain) (blocks : ∀ b ∈ counts.blocks, b.Plain) :
    isQuery (outer.toPattern.query o (counts.extras o.namespaces)) = true ∧
      Unescaped (outer.toPattern.query o (counts.extras o.namespaces)) := by
  have lines := Pattern.plainLines writable sourced []
  have every : ∀ p ∈ outer.projections ++ counts.projections, p.Plain := by
    intro p member
    rcases List.mem_append.mp member with own | counted
    · exact nodeColumnPlain sourced p own
    · exact columns p counted
  have body : Passes (outer.toPattern.bodyLines .standard) := fun goals s done ready =>
    readyLines laysSame lines (Pattern.openAfterLines outer.toPattern []) done ready
  have passes : Passes ((counts.blocks.map (CountBlock.lines .standard)).foldl addBlock
      (outer.toPattern.bodyLines .standard)) := by
    refine passesBlocks body fun block member => ?_
    obtain ⟨b,there,rfl⟩ := List.mem_map.mp member
    exact fun goals s done ready => readyBlock (blocks b there) done ready
  have clear : Clear ((counts.blocks.map (CountBlock.lines .standard)).foldl addBlock
      (outer.toPattern.bodyLines .standard)) := by
    refine clearBlocks (clearMap fun line member => unescapedLine (lines line member)) fun block member => ?_
    obtain ⟨b,there,rfl⟩ := List.mem_map.mp member
    exact clearBlock (blocks b there)
  unfold Pattern.query Pattern.queryLines Counts.extras
  simp only [standard]
  refine ⟨isQueryAround every passes word,unescapedJoin ?_⟩
  refine clearAppend (clearAppend (clearAppend (clearAppend (clearAppend (clearAppend
    (clearDeclarations _) ?_) (clearColumns every)) ?_) clear) ?_) (clearEnd word)
  · exact clearCons (by decide) (clearCons (by decide) clearNil)
  · exact clearCons (by decide) clearNil
  · exact clearCons (by decide) clearNil

theorem writableCompiles (writable : g.Writable) {o : QueryOptions} (standard : o.namespaces = .standard)
    (word : ∀ name ∈ o.orderVariable, IsWord name.toList) :
    ∃ query, g.queryText o = .ok query ∧ validate query = .ok () := by
  have part : g.outer.Writable := writableRestrict writable _
  obtain ⟨outer,counts,made,counted⟩ := partsMade (fun e member => (writable.bridges e member).1) o
  have words := patternSelected made
  obtain ⟨accepted,unescaped⟩ := queryOfPattern part (patternSourced made) standard word
    (countColumnPlain words counted) fun b member => blockPlain writable words (standard ▸ counted) member
  refine ⟨outer.toPattern.query o (counts.extras o.namespaces),?_,?_⟩
  · unfold SelectionGraph.queryText SelectionGraph.parts
    simp only [made,bind,Except.bind,counted]
  · unfold validate checked
    rw [unescapeOfPlain unescaped]
    simp only [bind,Except.bind,accepted,if_true]

theorem trimEndSubset {s : List Char} {c : Char} (member : c ∈ Text.trimEnd s) : c ∈ s := by
  induction s with
  | nil => nomatch member
  | cons d rest ih =>
      unfold Text.trimEnd at member
      split at member
      · split at member
        · nomatch member
        · exact List.mem_cons.mpr (.inl (List.mem_singleton.mp member))
      · rcases List.mem_cons.mp member with rfl | later
        · simp
        · exact List.mem_cons_of_mem _ (ih later)

theorem trimSubset {s : List Char} {c : Char} (member : c ∈ Text.trim s) : c ∈ s :=
  (List.dropWhile_suffix _).subset (trimEndSubset member)

theorem classIriCaret {token : String} {rest : List Char} (caret : token.toList = '^' :: rest) :
    classIri token = String.ofList rest := by
  simp [classIri,splitInverse,caret]

theorem classIriSame {token : String} (plain : '^' ∉ token.toList) : classIri token = token := by
  unfold classIri splitInverse
  split
  · next opening => simp [opening] at plain
  · rfl

theorem stripIri {token : String} (chars : IriText (classIri token)) :
    IriText (classIri (Text.strip token)) := by
  have stripped : (Text.strip token).toList = Text.trim token.toList := by
    rw [Text.strip,String.toList_ofList]
  by_cases caret : ∃ rest, token.toList = '^' :: rest
  · obtain ⟨rest,opening⟩ := caret
    have kept : Text.trim ('^' :: rest) = '^' :: Text.trimEnd rest := by
      have start : Text.trimStart ('^' :: rest) = '^' :: rest := rfl
      rw [Text.trim,start,Text.trimEnd]
      cases Text.trimEnd rest <;> rfl
    rw [classIriCaret opening] at chars
    rw [classIriCaret (stripped.trans (opening ▸ kept))]
    intro c member
    rw [String.toList_ofList] at member
    exact chars c (by rw [String.toList_ofList]; exact trimEndSubset member)
  · have same : classIri token = token := by
      unfold classIri splitInverse
      split
      · next rest opening => exact absurd ⟨rest,opening⟩ caret
      · rfl
    rw [same] at chars
    have inside : ∀ c ∈ (Text.strip token).toList, isIriChar c = true :=
      fun c member => chars c (trimSubset (stripped ▸ member))
    rw [classIriSame fun member => absurd (inside _ member) (by decide)]
    exact inside

def memberPath : List String :=
  ["http://example.org/Person","^http://example.org/member","http://www.cidoc-crm.org/cidoc-crm/E74_Group"]

def memberPaths : Value := .mapping
  [("person",.mapping [("path",Value.texts ["http://example.org/Person"])]),
    ("member",.mapping [("multiple",.flag true),("path",Value.texts memberPath)])]

def memberModel : PathModel := .ofList
  [⟨"person","",false,.field,"",none,["http://example.org/Person"]⟩,
    ⟨"member","",true,.field,"",none,memberPath⟩]

def memberSelection : Value := .mapping
  [("central",.text "person"),("nodes",Value.texts ["person","member"]),
    ("edges",.list [.mapping [("source",.text "person"),("target",.text "member"),
      ("bridge",.text "^http://example.org/of"),("boundary",.flag true)]]),
    ("count",Value.texts ["member"])]

def memberGraph : SelectionGraph :=
  { nodes := [⟨"person","person",memberModel.get? "person"⟩,⟨"member","member",memberModel.get? "member"⟩]
    edges := [⟨"person","member",.text "^http://example.org/of",true⟩]
    central := some "person"
    count := ["member"] }

def memberSettings : QueryOptions.Settings := ⟨true,true,some "?person_node",some "asc",.integer 5,.standard⟩

def memberOptions : QueryOptions := ⟨true,true,some "person_node",.ascending,some 5,.standard⟩

def invertedClass : String := "^" ++ rdfType

def invertedPaths : Value := .mapping [("x",.mapping [("path",Value.texts [invertedClass])])]

def invertedModel : PathModel := .ofList [⟨"x","",false,.field,"",none,[invertedClass]⟩]

def invertedSelection : Value := .mapping [("nodes",Value.texts ["x"])]

def invertedGraph : SelectionGraph := ⟨[⟨"x","x",invertedModel.get? "x"⟩],[],none,[]⟩

end PathQuery
