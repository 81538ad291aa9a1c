import PathQuery.Proofs.Query.TripleLines

/-! Bodies read back from their text alone. The braces show the same scopes as the lines were written with, around
each triple as many as the chain of its owner has, and the text of a count gives back its variable and its body. -/
namespace PathQuery
open Query Text
open SelectionGraph (covered)

variable {namespaces : NamespaceTable}

def readGroup (opened : Nat) : List (List Char) → Option (List (List Char × Nat))
  | [] => none
  | line :: rest =>
      let code := trimStart line
      if code = "OPTIONAL \x7b".toList then readGroup (opened + 1) rest
      else if code = ['\x7d'] then match opened with
        | 0 => some []
        | outer + 1 => readGroup outer rest
      else if startsWith ['?'] code then (readGroup opened rest).map ((code,opened) :: ·)
      else readGroup opened rest

theorem codeTrimmed {gap code : List Char} (spaces : ∀ c ∈ gap, c = ' ') {line : Line} (telling : line.Telling)
    (reads : line.Code namespaces code) : trimStart (gap ++ code) = code := by
  have visible : ∀ {c : Char}, code.head? = some c → isBlank c = false → trimStart (gap ++ code) = code := by
    intro c first shown
    obtain ⟨rest,rfl⟩ := List.head?_eq_some_iff.mp first
    exact trimMargin spaces shown rest
  cases reads with
  | note depth text => exact visible telling (by decide)
  | marker text => exact visible telling (by decide)
  | opening scope => exact visible rfl (by decide)
  | closing scope => exact visible rfl (by decide)
  | triple depth t =>
      obtain ⟨rest,text⟩ := anchoredOpens namespaces telling
      exact visible (by rw [text]; rfl) (by decide)

theorem groupSkips {line : List Char} (opened : Nat) (rest : List (List Char))
    (idle : trimStart line = [] ∨ (trimStart line).head? = some '#') :
    readGroup opened (line :: rest) = readGroup opened rest := by
  rcases idle with empty | opens
  · simp [readGroup,empty,startsWith]
  · obtain ⟨text,code⟩ := List.head?_eq_some_iff.mp opens
    simp [readGroup,code,startsWith,List.isPrefixOf]

theorem groupOpens {line : List Char} (opened : Nat) (rest : List (List Char))
    (code : trimStart line = "OPTIONAL \x7b".toList) :
    readGroup opened (line :: rest) = readGroup (opened + 1) rest := by
  simp [readGroup,code]

theorem groupCloses {line : List Char} (opened : Nat) (rest : List (List Char)) (code : trimStart line = ['\x7d']) :
    readGroup (opened + 1) (line :: rest) = readGroup opened rest := by
  simp [readGroup,code]

theorem groupTakes {line text : List Char} (opened : Nat) (rest : List (List Char))
    (code : trimStart line = '?' :: text) :
    readGroup opened (line :: rest) = (readGroup opened rest).map (('?' :: text,opened) :: ·) := by
  simp [readGroup,code,startsWith,List.isPrefixOf]

theorem groupReadBack {layout : List Char → List Char} {margin : List Char} (indents : Indents layout margin)
    {stop : List Char} (stops : trimStart stop = ['\x7d']) (below : List (List Char)) {lines : List Line}
    (telling : ∀ line ∈ lines, line.Telling) {opened : List Scope} {placed : List (Triple × List String)}
    (played : replay opened lines = some placed) :
    readGroup opened.length ((lines.map fun line => layout (line.text namespaces)) ++ stop :: below) =
      some (placed.map fun (t,ids) => (t.text namespaces,ids.length)) := by
  -- Line by line: as many braces are open as scopes are, and a comment is neither, whatever it says.
  induction lines generalizing opened placed with
  | nil =>
      unfold replay at played
      split at played
      · next none =>
        cases played
        subst none
        simp [readGroup,stops]
      · contradiction
  | cons line rest ih =>
      have own := telling line List.mem_cons_self
      have later := fun {opened placed} => @ih (fun other member => telling other (List.mem_cons_of_mem _ member))
        opened placed
      rw [List.map_cons,List.cons_append]
      rcases lineLaid namespaces indents own with ⟨rfl,laid⟩ | ⟨gap,code,spaces,laid,reads⟩
      · rw [laid,groupSkips _ _ (.inl rfl)]
        exact later played
      · have trimmed := codeTrimmed spaces own reads
        rw [laid]
        cases reads with
        | note depth text =>
            rw [groupSkips _ _ (.inr ((congrArg List.head? trimmed).trans own))]
            exact later played
        | marker text =>
            rw [groupSkips _ _ (.inr ((congrArg List.head? trimmed).trans own))]
            exact later played
        | opening scope =>
            have deeper := later (show replay (opened ++ [scope]) rest = some placed from played)
            rw [List.length_append,List.length_singleton] at deeper
            rw [groupOpens _ _ trimmed]
            exact deeper
        | closing scope =>
            unfold replay at played
            split at played
            · next innermost =>
              obtain ⟨outer,rfl⟩ := List.getLast?_eq_some_iff.mp innermost
              rw [List.dropLast_concat] at played
              rw [List.length_append,List.length_singleton,groupCloses _ _ trimmed]
              exact later played
            · contradiction
        | triple depth t =>
            obtain ⟨inner,there,same⟩ := Option.map_eq_some_iff.mp played
            cases same
            obtain ⟨text,shown⟩ := anchoredOpens namespaces own
            rw [groupTakes _ _ (trimmed.trans shown),later there,← shown]
            simp

variable {g : SelectionGraph} {full zero : Bool} {outer sub : SelectPattern} {counts : Counts} {b : CountBlock}
  {node : String}

theorem saidTells {line : Line} (said : g.Says line) : line.Telling := by
  cases said with
  | note depth remark =>
      obtain ⟨arrow,m,_,n,_,rfl⟩ := remark
      exact commentOpens _ _ _
  | marker member => exact centralOpens _
  | triple depth asked => exact askedAnchored asked
  | blank => trivial
  | opening scope => trivial
  | closing scope => trivial

theorem tellingRename (names : Renaming) {line : Line} (telling : line.Telling) : (line.rename names).Telling := by
  cases line with
  | triple depth t => exact renameAnchored telling names
  | _ => exact telling

/-- The text of a body closes every scope that it opens, and shows each triple that the pattern records once, in as
many scopes as the chain has of the owner that first asks for it. -/
theorem bodyReadBack (made : g.pattern full = .ok outer) (namespaces : NamespaceTable) (below : List (List Char)) :
    readGroup 0 (outer.toPattern.bodyLines namespaces ++ "\x7d".toList :: below) =
      some ((outer.toPattern.awaited [] outer.emissions).map fun t =>
        (t.text namespaces,(outer.toPattern.firstChain outer.emissions t).length)) := by
  have telling : ∀ line ∈ outer.toPattern.lines [], line.Telling := fun line member =>
    saidTells (Pattern.linesSaid (patternSourced made) [] line member)
  have stops : trimStart "\x7d".toList = ['\x7d'] := by decide
  have read := @groupReadBack namespaces id [] indentsSame _ stops below _ telling [] _
    (Pattern.replayLines outer.toPattern [])
  rw [List.map_map] at read
  exact read

def isSubSelect (line : List Char) : Bool := startsWith "SELECT".toList (trimStart line)

def readCount (lines : List (List Char)) : Option (List Char × List (List Char × Nat)) :=
  match lines.dropWhile fun line => !isSubSelect line with
  | select :: _ :: body => (lastVariable select).bind fun name => (readGroup 0 body).map (name,·)
  | _ => none

theorem originPlayed (origin : BlockOrigin g namespaces full outer b node sub) :
    replay [] b.body =
      some ((sub.toPattern.unmarked.awaited (covered outer sub (g.joining outer sub node)) sub.emissions).map fun t =>
        (t.rename (g.joining outer sub node),sub.toPattern.unmarked.firstChain sub.emissions t)) := by
  obtain ⟨members,_,made⟩ := origin.made
  have anchored := bodyAnchored (patternSourced made) outer (g.joining outer sub node)
  rw [origin.body,SelectionGraph.countBody,← replaySolid,keptSolid namespaces (droppedAreNotes g _ _) anchored,
    replaySolid,replayRename,Pattern.replayLines,Option.map_some,List.map_map]
  rfl

theorem rawNamed (words : outer.selected.Words)
    (counted : Counts.ofGraph g outer (CountClosures.ofGraph g) namespaces zero full = .ok counts)
    (member : b ∈ counts.blocks) : IsColumnName b.raw.toList := by
  obtain ⟨_,_,sub,t,tally,block⟩ := blockSource counted member
  have opens := ((patternNodeNamed tally.made).1 _ (Table.findValue tally.counted)).opens
  obtain ⟨taken,raw⟩ := block.raw
  refine ⟨(blockWords words counted member).2.2,?_⟩
  rw [raw,String.toList_append]
  exact headAppend (aliasOpens opens taken) _

theorem selectVariable (named : IsColumnName b.raw.toList) (front : List Char) :
    lastVariable (front ++ b.select) = some b.raw.toList := by
  have stop : Stops isWordChar [')'] := stopsCons (by decide) []
  have read := lastVariableOf named stop (by decide)
    (front ++ ("SELECT ".toList ++ (b.parent.elim [] fun p => '?' :: p.toList ++ [' ']) ++
      "(COUNT(DISTINCT ?".toList ++ b.counted.toList ++ ") AS ".toList))
  unfold CountBlock.select
  simp only [List.append_assoc] at read ⊢
  exact read

namespace CountBlock

def margin (b : CountBlock) : List Char := if b.optional then "    ".toList else "  ".toList

def above (b : CountBlock) : List (List Char) :=
  ((b.comment.map (·.toList)).filter (· ≠ [])).toList.map ("  ".toList ++ ·) ++
    (if b.optional then ["  ".toList ++ "OPTIONAL \x7b".toList] else []) ++ [b.margin ++ ['\x7b']]

def gap (b : CountBlock) : List Char := b.margin ++ (if b.optional then [] else "  ".toList)

end CountBlock

theorem linesParted (namespaces : NamespaceTable) (b : CountBlock) : ∃ below, b.lines namespaces =
    b.above ++ (b.gap ++ b.select) :: (b.margin ++ "  WHERE \x7b".toList) ::
      (b.body.map (fun line => indented b.margin (line.text namespaces)) ++
        (b.margin ++ "  \x7d".toList) :: below) := by
  unfold CountBlock.lines blockLines CountBlock.above CountBlock.gap CountBlock.margin
  simp only [List.append_assoc,List.cons_append,List.nil_append,List.map_map,Function.comp_def]
  exact ⟨_,rfl⟩

theorem aboveSelect (remarked : ∀ text ∈ b.comment, text.toList.head? = some '#') :
    ∀ line ∈ b.above, isSubSelect line = false := by
  have two : ∀ c ∈ "  ".toList, c = ' ' := by simp
  have other : ∀ {margin : List Char} {c : Char} (rest : List Char), (∀ d ∈ margin, d = ' ') → isBlank c = false →
      'S' ≠ c → isSubSelect (margin ++ c :: rest) = false := by
    intro margin c rest spaces visible apart
    simp [isSubSelect,trimMargin spaces visible,startsWith,List.isPrefixOf,apart]
  intro line member
  rcases List.mem_append.mp member with member | member
  · rcases List.mem_append.mp member with member | member
    · obtain ⟨note,there,rfl⟩ := List.mem_map.mp member
      obtain ⟨given,_⟩ := Option.filter_eq_some_iff.mp (Option.mem_toList.mp there)
      obtain ⟨text,comment,rfl⟩ := Option.map_eq_some_iff.mp given
      obtain ⟨rest,opens⟩ := List.head?_eq_some_iff.mp (remarked text comment)
      exact opens ▸ other rest two (by decide) (by decide)
    · split at member
      · rw [List.mem_singleton.mp member]
        decide
      · exact absurd member List.not_mem_nil
  · rw [List.mem_singleton.mp member]
    exact other [] (innerSpaces b.optional) (by decide) (by decide)

theorem selectShown (b : CountBlock) : isSubSelect (b.gap ++ b.select) = true := by
  have spaces : ∀ c ∈ b.gap, c = ' ' := List.forall_mem_append.mpr ⟨innerSpaces b.optional,gapSpaces b.optional⟩
  have text : ∃ rest, b.select = 'S' :: 'E' :: 'L' :: 'E' :: 'C' :: 'T' :: rest := by
    unfold CountBlock.select
    simp
  obtain ⟨rest,text⟩ := text
  rw [isSubSelect,text,trimMargin spaces (by decide)]
  simp [startsWith]

theorem closeShown (b : CountBlock) : trimStart (b.margin ++ "  \x7d".toList) = ['\x7d'] := by
  have spaces : ∀ c ∈ b.margin ++ "  ".toList, c = ' ' := List.forall_mem_append.mpr ⟨innerSpaces b.optional,by simp⟩
  have trimmed := trimMargin spaces (show isBlank '\x7d' = false by decide) []
  rwa [List.append_assoc] at trimmed

/-- The text of a count gives back the variable that it binds, and the triples of its body in their scopes. -/
theorem countReadBack (made : g.outer.pattern full = .ok outer)
    (counted : Counts.ofGraph g outer (CountClosures.ofGraph g) namespaces zero full = .ok counts)
    (member : b ∈ counts.blocks) : ∃ placed, replay [] b.body = some placed ∧
      readCount (b.lines namespaces) =
        some (b.raw.toList,placed.map fun (t,ids) => (t.text namespaces,ids.length)) := by
  have words := patternSelected made
  obtain ⟨node,sub,origin⟩ := blockOrigin counted member
  have played := originPlayed origin
  have telling : ∀ line ∈ b.body, line.Telling := by
    intro line inside
    obtain ⟨ids,id,source,names,_,said,rfl⟩ := blockSaid words counted member inside
    exact tellingRename names (saidTells said)
  have remarked : ∀ text ∈ b.comment, text.toList.head? = some '#' := by
    intro text comment
    obtain ⟨n,_,id,rfl⟩ := blockComment counted member comment
    exact commentOpens _ _ _
  have inner : ∀ c ∈ b.margin, c = ' ' := innerSpaces b.optional
  obtain ⟨below,parted⟩ := linesParted namespaces b
  have cut : (b.lines namespaces).dropWhile (fun line => !isSubSelect line) = (b.gap ++ b.select) ::
      (b.margin ++ "  WHERE \x7b".toList) :: (b.body.map (fun line => indented b.margin (line.text namespaces)) ++
        (b.margin ++ "  \x7d".toList) :: below) := by
    rw [parted,List.dropWhile_append_of_pos fun line there => by simp [aboveSelect remarked line there],
      List.dropWhile_cons_of_neg (by simp [selectShown b])]
  have group : readGroup 0 (b.body.map (fun line => indented b.margin (line.text namespaces)) ++
      (b.margin ++ "  \x7d".toList) :: below) = _ :=
    groupReadBack (indentsBy inner) (closeShown b) below telling played
  refine ⟨_,played,?_⟩
  rw [readCount,cut]
  simp only [selectVariable (rawNamed words counted member),Option.bind_some,group,Option.map_some]

end PathQuery
