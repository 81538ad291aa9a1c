import PathQuery.Proofs.Grammar.Select
import PathQuery.Proofs.Query.Body

/-! Count blocks as the grammar reads them: a comment, and a sub-select in a group of its own, which may
stand in an optional group. -/
namespace PathQuery
open Grammar

structure CountBlock.Plain (b : CountBlock) : Prop where
  comment : ∀ text ∈ b.comment, NoteText text.toList
  parent : ∀ p ∈ b.parent, IsWord p.toList
  counted : IsWord b.counted.toList
  raw : IsWord b.raw.toList
  lines : ∀ line ∈ b.body, line.Plain
  scopes : openAfter 0 b.body = some 0

variable {g : SelectionGraph}

theorem parentRenamingWords (inner : Option String) {outer : Option String}
    (words : ∀ name ∈ outer, IsWord name.toList) : (SelectionGraph.parentRenaming inner outer).Words := by
  unfold SelectionGraph.parentRenaming
  split
  · next a b =>
    split
    · exact Table.wordsEmpty
    · exact ofListWords fun entry member => by
        rw [List.mem_singleton.mp member]
        exact words b rfl
  · exact Table.wordsEmpty

theorem nameOfNode {id name : String} (found : g.nameOf id = some name) : ∃ n ∈ g.nodes, name = n.name := by
  obtain ⟨given,_⟩ := Option.filter_eq_some_iff.mp found
  obtain ⟨n,there,rfl⟩ := Option.map_eq_some_iff.mp given
  exact ⟨n,(SelectionGraph.nodeFound there).1,rfl⟩

theorem countNamePlain (writable : g.Writable) (id : String) :
    '\n' ∉ ((g.nameOf id).getD "").toList ∧ '\\' ∉ ((g.nameOf id).getD "").toList := by
  cases found : g.nameOf id with
  | none => decide
  | some name =>
      obtain ⟨n,member,rfl⟩ := nameOfNode found
      exact writable.names n member

theorem tallyWords {namespaces : NamespaceTable} {full : Bool} {outer : SelectPattern}
    (words : outer.selected.Words) {closures : CountClosures} {id : String} {members : List String}
    {sub : SelectPattern} {t : Tally}
    (tally : TallySource g namespaces full outer closures id members sub t) :
    IsWord t.counted.toList ∧ ∀ p ∈ t.parent, IsWord p.toList :=
  ⟨Table.wordsFind (patternSelected tally.made) tally.counted,
    fun _ there => parentVariableWord words (tally.parent ▸ there)⟩

theorem countAliasWord {counted : String} (word : IsWord counted.toList) (taken : List String) :
    IsWord (uniqueAlias (counted ++ "_count") taken).toList :=
  uniqueAliasWord (nameAppend word (by decide)) taken

theorem blockWords {outer : SelectPattern} (words : outer.selected.Words) {closures : CountClosures}
    {namespaces : NamespaceTable} {zero full : Bool} {counts : Counts}
    (counted : Counts.ofGraph g outer closures namespaces zero full = .ok counts) {b : CountBlock}
    (member : b ∈ counts.blocks) :
    (∀ p ∈ b.parent, IsWord p.toList) ∧ IsWord b.counted.toList ∧ IsWord b.raw.toList := by
  obtain ⟨_,_,_,_,tally,block⟩ := blockSource counted member
  obtain ⟨value,parent⟩ := tallyWords words tally
  obtain ⟨taken,raw⟩ := block.raw
  refine ⟨block.parent ▸ parent,block.counted ▸ value,?_⟩
  rw [raw]
  exact nameAppend (countAliasWord value taken) (by decide)

theorem blockPlain (writable : g.Writable) {outer : SelectPattern} (words : outer.selected.Words)
    {closures : CountClosures} {zero full : Bool} {counts : Counts}
    (counted : Counts.ofGraph g outer closures .standard zero full = .ok counts) {b : CountBlock}
    (member : b ∈ counts.blocks) : b.Plain := by
  obtain ⟨entry,_,sub,t,tally,block⟩ := blockSource counted member
  obtain ⟨_,parent⟩ := tallyWords words tally
  have part := writableCentral (writableRestrict writable
    (entry.2 ++ (closures.parents.find? entry.1).toList)) entry.1
  obtain ⟨lines,scopes⟩ := countBodyPlain part (patternSourced tally.made)
    (parentRenamingWords (SelectionGraph.parentVariable sub (closures.parents.find? entry.1)) parent)
    (droppedAreNotes g (closures.parents.find? entry.1) entry.1)
  obtain ⟨parents,values,raws⟩ := blockWords words counted member
  constructor
  · intro text there
    rw [block.comment,tally.comment] at there
    obtain ⟨name,found,rfl⟩ := Option.map_eq_some_iff.mp there
    obtain ⟨id,_,named⟩ := Option.bind_eq_some_iff.mp found
    obtain ⟨n,member,rfl⟩ := nameOfNode named
    exact transitionNote (writable.names n member) (countNamePlain writable entry.1) _
  · exact parents
  · exact values
  · exact raws
  · rw [block.body,tally.body]
    exact lines
  · rw [block.body,tally.body]
    exact scopes

def subSelectEnd (goals : List Goal) : List Goal :=
  .groupBy :: .orderBy :: .limit :: mark '\x7d' :: .afterPattern :: goals

theorem fulfilsSubSelectEnd {parent : Option (List Char)} (group : ∀ p ∈ parent, IsWord p)
    {margin inner : List Char} (spaces : ∀ c ∈ margin, isSpace c = true)
    (more : ∀ c ∈ inner, isSpace c = true) {goals : List Goal} {s : List Char} (ready : Ready goals s) :
    fulfils (subSelectEnd goals) (below ((parent.map fun p => inner ++ ("GROUP BY ?".toList ++ p)).toList ++
      [margin ++ ['\x7d']]) ++ s) = true := by
  have last : ∀ grouping : Goal, grouping = .groupBy ∨ grouping = .moreGroupKeys →
      fulfils (grouping :: .orderBy :: .limit :: mark '\x7d' :: .afterPattern :: goals)
        ('\n' :: (margin ++ '\x7d' :: s)) = true := by
    intro grouping known
    rw [fulfilsSpace rfl,fulfilsMargin spaces]
    have taken : fulfils (grouping :: .orderBy :: .limit :: mark '\x7d' :: .afterPattern :: goals)
        ('\x7d' :: s) = fulfils (.afterPattern :: goals) s := by
      rcases known with rfl | rfl <;> exact fulfilsOfAdvance (by cases s <;> rfl)
    rw [taken]
    exact ready .afterPattern (.inr (.inr rfl))
  cases parent with
  | none =>
      have := last .groupBy (.inl rfl)
      simpa [below,subSelectEnd] using this
  | some p =>
      have text : below ((some p |>.map fun p => inner ++ ("GROUP BY ?".toList ++ p)).toList ++
          [margin ++ ['\x7d']]) ++ s =
          '\n' :: (inner ++ ("GROUP BY ?".toList ++ (p ++ '\n' :: (margin ++ '\x7d' :: s)))) := by
        simp [below]
      rw [text,fulfilsSpace rfl,fulfilsMargin more,subSelectEnd,
        fulfilsGroupBy (group p rfl) _ (fun c head => by cases head; rfl)]
      exact last .moreGroupKeys (.inr rfl)

def subSelectLines (margin inner : List Char) (b : CountBlock) : List (List Char) :=
  (margin ++ ['\x7b']) :: (inner ++ b.select) :: (margin ++ "  WHERE \x7b".toList) ::
    (b.body.map fun line => indented margin (line.text .standard)) ++
    ((margin ++ "  \x7d".toList) ::
      (b.parent.map fun p => (margin ++ "  ".toList) ++ ("GROUP BY ?".toList ++ p.toList)).toList ++
        [margin ++ ['\x7d']])

theorem selectParts (b : CountBlock) (s : List Char) :
    b.select ++ s = "SELECT ".toList ++ (((b.parent.map String.toList).elim [] fun p => '?' :: p ++ [' ']) ++
      ("(COUNT(DISTINCT ?".toList ++ (b.counted.toList ++ (") AS ?".toList ++ (b.raw.toList ++ ')' :: s))))) := by
  unfold CountBlock.select
  cases b.parent <;>
    simp only [Option.map_none,Option.map_some,Option.elim_none,Option.elim_some,List.append_assoc,
      List.cons_append,List.nil_append]

theorem wideSpaces {margin : List Char} (spaces : ∀ c ∈ margin, isSpace c = true) :
    ∀ c ∈ margin ++ "  ".toList, isSpace c = true := by
  intro c member
  rcases List.mem_append.mp member with member | member
  · exact spaces c member
  · exact List.all_eq_true.mp (by decide : "  ".toList.all isSpace = true) c member

theorem parentWords {b : CountBlock} (plain : b.Plain) : ∀ p ∈ b.parent.map String.toList, IsWord p := by
  intro p member
  obtain ⟨name,there,rfl⟩ := Option.map_eq_some_iff.mp member
  exact plain.parent name there

theorem readySubSelect {b : CountBlock} (plain : b.Plain) {margin inner : List Char}
    (spaces : ∀ c ∈ margin, isSpace c = true) (more : ∀ c ∈ inner, isSpace c = true) {goals : List Goal}
    {s : List Char} (ready : Ready goals s) :
    Ready goals (below (subSelectLines margin inner b) ++ s) := by
  have wide := wideSpaces spaces
  have ending := fulfilsSubSelectEnd (parentWords plain) spaces wide ready
  -- From here on what follows the body is only known by what it fulfils, and so is what follows its head.
  generalize endText : below ((b.parent.map String.toList |>.map fun p =>
    (margin ++ "  ".toList) ++ ("GROUP BY ?".toList ++ p)).toList ++ [margin ++ ['\x7d']]) ++ s = tail at ending
  have after : Ready (scopeGoals 0 (subSelectEnd goals)) ('\n' :: ((margin ++ "  ".toList) ++ '\x7d' :: tail)) :=
    readyBreak (readyMargin wide (readyClosing ending))
  have lineEnd : AtLineEnd ('\n' :: ((margin ++ "  ".toList) ++ '\x7d' :: tail)) := fun c head => by
    cases head; rfl
  have body := readyLines (laysIndented spaces) plain.lines plain.scopes lineEnd after
  generalize bodyText : below (b.body.map fun line => indented margin (line.text .standard)) ++
    '\n' :: ((margin ++ "  ".toList) ++ '\x7d' :: tail) = rest at body
  have text : below (subSelectLines margin inner b) ++ s = '\n' :: (margin ++ '\x7b' :: '\n' ::
      (inner ++ (b.select ++ '\n' :: ((margin ++ "  ".toList) ++ ("WHERE \x7b".toList ++ rest))))) := by
    rw [← bodyText,← endText,subSelectLines,Option.map_map]
    simp only [belowAppend,belowCons,List.append_assoc,List.cons_append,List.nil_append]
    rfl
  rw [text]
  refine readyBreak (readyMargin spaces (readyOpening ?_))
  rw [fulfilsSpace rfl,fulfilsMargin more,selectParts,fulfilsInnerSelect]
  refine Eq.trans (fulfilsInnerColumns (parentWords plain) plain.counted plain.raw
    (.maybe (.keyword .WHERE) :: mark '\x7b' :: .body :: subSelectEnd goals) _) ?_
  rw [fulfilsSpace rfl,fulfilsMargin wide,fulfilsWhere]
  exact body .body (.inl rfl)

theorem spacesMargin (n : Nat) : ∀ c ∈ List.replicate n ' ', isSpace c = true := by
  intro c member
  rw [(List.mem_replicate.mp member).2]
  rfl

theorem blockLinesParts {b : CountBlock} (plain : b.Plain) : b.lines .standard =
    (b.comment.map fun text => List.replicate 2 ' ' ++ text.toList).toList ++
      if b.optional then
        (List.replicate 2 ' ' ++ "OPTIONAL \x7b".toList) ::
          subSelectLines (List.replicate 4 ' ') (List.replicate 4 ' ') b ++ [List.replicate 2 ' ' ++ ['\x7d']]
      else subSelectLines (List.replicate 2 ' ') (List.replicate 4 ' ') b := by
  have comment : (b.comment.map (·.toList)).filter (· ≠ []) = b.comment.map (·.toList) := by
    cases given : b.comment with
    | none => rfl
    | some text =>
        obtain ⟨rest,opening,_⟩ := plain.comment text given
        simp [opening]
  have group : b.groupBy.filter (· ≠ []) = b.groupBy := by
    unfold CountBlock.groupBy
    cases b.parent with
    | none => rfl
    | some p => simp
  unfold CountBlock.lines blockLines
  rw [comment,group]
  unfold subSelectLines CountBlock.groupBy
  cases b.optional <;> cases b.comment <;> cases b.parent <;>
    simp only [List.map_map,List.append_assoc,List.cons_append,List.nil_append,Option.map_none,Option.map_some] <;>
    rfl

theorem readyBlock {b : CountBlock} (plain : b.Plain) {goals : List Goal} {s : List Char}
    (done : AtLineEnd s) (ready : Ready goals s) : Ready goals (below (b.lines .standard) ++ s) := by
  have body : ∀ lines, lines = (if b.optional then
        (List.replicate 2 ' ' ++ "OPTIONAL \x7b".toList) ::
          subSelectLines (List.replicate 4 ' ') (List.replicate 4 ' ') b ++ [List.replicate 2 ' ' ++ ['\x7d']]
      else subSelectLines (List.replicate 2 ' ') (List.replicate 4 ' ') b) → Ready goals (below lines ++ s) := by
    rintro lines rfl
    split
    · have closing : Ready (.afterPattern :: goals) ('\n' :: (List.replicate 2 ' ' ++ '\x7d' :: s)) :=
        readyBreak (readyMargin (spacesMargin 2) (readyClosing (ready .afterPattern (.inr (.inr rfl)))))
      have inside := readySubSelect plain (spacesMargin 4) (spacesMargin 4) closing
      have text : below ((List.replicate 2 ' ' ++ "OPTIONAL \x7b".toList) ::
          subSelectLines (List.replicate 4 ' ') (List.replicate 4 ' ') b ++ [List.replicate 2 ' ' ++ ['\x7d']]) ++ s =
          '\n' :: (List.replicate 2 ' ' ++ ("OPTIONAL \x7b".toList ++
            (below (subSelectLines (List.replicate 4 ' ') (List.replicate 4 ' ') b) ++
              '\n' :: (List.replicate 2 ' ' ++ '\x7d' :: s)))) := by
        simp only [belowAppend,belowCons,List.append_assoc,List.cons_append]
        rfl
      rw [text]
      exact readyBreak (readyMargin (spacesMargin 2) (readyOptional inside))
    · exact readySubSelect plain (spacesMargin 2) (spacesMargin 4) ready
  rw [blockLinesParts plain,belowAppend,List.append_assoc]
  cases given : b.comment with
  | none => exact body _ rfl
  | some text =>
      obtain ⟨rest,opening,line,_⟩ := plain.comment text given
      simp only [Option.map_some,Option.toList_some,opening,belowCons,List.cons_append,List.append_assoc]
      exact readyBreak (readyMargin (spacesMargin 2)
        (readyComment line (belowAtLineEnd [] (belowAtLineEnd _ done)) (body _ rfl)))

end PathQuery
