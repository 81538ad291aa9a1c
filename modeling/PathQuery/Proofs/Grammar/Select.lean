import PathQuery.Proofs.Grammar.Group

/-! How the columns and the modifiers of a select query are read, and the declarations before it. -/
namespace PathQuery.Grammar

def TakesVar (goal : Goal) (more : List Goal) : Prop :=
  ∀ t s, t.head? = some '?' → readVar t = some s → goal.take t = some (more,s)

theorem fulfilsVar {goal : Goal} {more : List Goal} (takes : TakesVar goal more) {name s : List Char}
    (word : IsWord name) (stop : Stops isVarChar s) (goals : List Goal) :
    fulfils (goal :: goals) ('?' :: name ++ s) = fulfils (more ++ goals) s := by
  apply fulfilsOfAdvance
  rw [List.cons_append,skipVisible ⟨by decide,by decide⟩]
  exact advanceTaken (takes _ _ rfl (readVarWord word stop)) goals

theorem markOther {c d : Char} (other : c ≠ d) {t : List Char} (head : t.head? = some c) :
    readMark d t = none := by
  cases t with
  | nil => rfl
  | cons b rest => cases head; simp [readMark,other]

theorem oneTakesVar : TakesVar (.one .var) [] := by
  intro t s _ read
  simp [Goal.take,Goal.choices,Lexeme.read,read]

def IsColumnGoal (goal : Goal) : Prop := goal = .columns ∨ goal = .moreColumns

theorem columnTakesVar {goal : Goal} (column : IsColumnGoal goal) : TakesVar goal [.moreColumns] := by
  intro t s head read
  have star : readMark '*' t = none := markOther (by decide) head
  rcases column with rfl | rfl <;> simp [Goal.take,Goal.choices,columnChoices,Lexeme.read,read,star]

theorem fulfilsVarColumn {goal : Goal} (column : IsColumnGoal goal) {name s : List Char}
    (word : IsWord name) (stop : Stops isVarChar s) (goals : List Goal) :
    fulfils (goal :: goals) ('?' :: name ++ s) = fulfils (.moreColumns :: goals) s :=
  fulfilsVar (columnTakesVar column) word stop goals

theorem argumentsTakeVar : TakesVar .arguments [.moreArguments] := by
  intro t s head read
  have close : readMark ')' t = none := markOther (by decide) head
  simp [Goal.take,Goal.choices,followedBy,expressionChoices,Lexeme.read,read,close]

theorem countedTakesVar : TakesVar .counted [] := by
  intro t s head read
  have star : readMark '*' t = none := markOther (by decide) head
  simp [Goal.take,Goal.choices,expressionChoices,Lexeme.read,read,star]

theorem groupKeyTakesVar : TakesVar .groupKey [.moreGroupKeys] := by
  intro t s _ read
  simp [Goal.take,Goal.choices,groupChoices,followedBy,Lexeme.read,read]

theorem fulfilsAlias {name : List Char} (word : IsWord name) (goals : List Goal) (s : List Char) :
    fulfils (.one (.keyword .AS) :: .one .var :: mark ')' :: goals)
      (" AS ?".toList ++ (name ++ ')' :: s)) = fulfils goals s := by
  have keyword : fulfils (.one (.keyword .AS) :: .one .var :: mark ')' :: goals)
      (" AS ?".toList ++ (name ++ ')' :: s)) =
      fulfils (.one .var :: mark ')' :: goals) (' ' :: ('?' :: name ++ ')' :: s)) := fulfilsOfAdvance rfl
  rw [keyword,fulfilsSpace rfl,fulfilsVar oneTakesVar word (stopsCons (by decide) s)]
  exact fulfilsOfAdvance rfl

theorem fulfilsParenthesis {goal : Goal} (column : IsColumnGoal goal) (goals : List Goal)
    (s : List Char) : fulfils (goal :: goals) ('(' :: s) =
      fulfils (aliasGoals ++ .moreColumns :: goals) s := by
  rcases column with rfl | rfl <;> cases s <;> exact fulfilsOfAdvance rfl

theorem fulfilsCoalesce {source : List Char} (word : IsWord source) (goals : List Goal)
    (s : List Char) : fulfils (.expression :: goals) ("COALESCE(?".toList ++ (source ++
      (", 0)".toList ++ s))) = fulfils goals s := by
  have opening : fulfils (.expression :: goals) ("COALESCE(?".toList ++ (source ++ (", 0)".toList ++ s))) =
      fulfils (mark '(' :: .arguments :: goals) ('(' :: ('?' :: source ++ (", 0)".toList ++ s))) :=
    fulfilsOfAdvance rfl
  have bracket : fulfils (mark '(' :: .arguments :: goals) ('(' :: ('?' :: source ++ (", 0)".toList ++ s))) =
      fulfils (.arguments :: goals) ('?' :: source ++ (", 0)".toList ++ s)) := fulfilsOfAdvance rfl
  have comma : Stops isVarChar (", 0)".toList ++ s) := stopsCons (by decide) _
  have first : fulfils (.arguments :: goals) ('?' :: source ++ (", 0)".toList ++ s)) =
      fulfils (.moreArguments :: goals) (", 0)".toList ++ s) := fulfilsVar argumentsTakeVar word comma goals
  have second : fulfils (.moreArguments :: goals) (", 0)".toList ++ s) =
      fulfils (.expression :: .moreArguments :: goals) (" 0)".toList ++ s) := fulfilsOfAdvance rfl
  have zero : fulfils (.expression :: .moreArguments :: goals) (" 0)".toList ++ s) =
      fulfils (.moreArguments :: goals) (')' :: s) := fulfilsOfAdvance rfl
  rw [opening,bracket,first,second,zero]
  exact fulfilsOfAdvance rfl

theorem fulfilsCountOf {counted : List Char} (word : IsWord counted) (goals : List Goal)
    (s : List Char) : fulfils (.expression :: goals) ("COUNT(DISTINCT ?".toList ++ (counted ++ ')' :: s)) =
      fulfils goals s := by
  have opening : fulfils (.expression :: goals) ("COUNT(DISTINCT ?".toList ++ (counted ++ ')' :: s)) =
      fulfils (mark '(' :: .maybe (.keyword .DISTINCT) :: .counted :: mark ')' :: goals)
        ("(DISTINCT ?".toList ++ (counted ++ ')' :: s)) := fulfilsOfAdvance rfl
  have bracket : fulfils (mark '(' :: .maybe (.keyword .DISTINCT) :: .counted :: mark ')' :: goals)
        ("(DISTINCT ?".toList ++ (counted ++ ')' :: s)) =
      fulfils (.maybe (.keyword .DISTINCT) :: .counted :: mark ')' :: goals)
        ("DISTINCT ?".toList ++ (counted ++ ')' :: s)) := fulfilsOfAdvance rfl
  have distinct : fulfils (.maybe (.keyword .DISTINCT) :: .counted :: mark ')' :: goals)
        ("DISTINCT ?".toList ++ (counted ++ ')' :: s)) =
      fulfils (.counted :: mark ')' :: goals) (' ' :: ('?' :: counted ++ ')' :: s)) := fulfilsOfAdvance rfl
  have value : fulfils (.counted :: mark ')' :: goals) ('?' :: counted ++ ')' :: s) =
      fulfils (mark ')' :: goals) (')' :: s) :=
    fulfilsVar countedTakesVar word (stopsCons (by decide) s) _
  rw [opening,bracket,distinct,fulfilsSpace rfl,value]
  exact fulfilsOfAdvance rfl

theorem fulfilsInnerSelect (goals : List Goal) (s : List Char) :
    fulfils (.body :: goals) ("SELECT ".toList ++ s) = fulfils (selectGoals ++ mark '\x7d' :: goals) s := by
  have keyword : fulfils (.body :: goals) ("SELECT ".toList ++ s) =
      fulfils (selectGoals ++ mark '\x7d' :: goals) (' ' :: s) := fulfilsOfAdvance rfl
  rw [keyword,fulfilsSpace rfl]

theorem fulfilsWhere (goals : List Goal) (s : List Char) :
    fulfils (.moreColumns :: .maybe (.keyword .WHERE) :: mark '\x7b' :: goals) ("WHERE \x7b".toList ++ s) =
      fulfils goals s := by
  have keyword : fulfils (.moreColumns :: .maybe (.keyword .WHERE) :: mark '\x7b' :: goals)
      ("WHERE \x7b".toList ++ s) = fulfils (mark '\x7b' :: goals) (" \x7b".toList ++ s) := fulfilsOfAdvance rfl
  rw [keyword]
  exact fulfilsOfAdvance rfl

theorem fulfilsCountColumn {counted raw : List Char} (value : IsWord counted) (name : IsWord raw)
    {goal : Goal} (column : IsColumnGoal goal) (goals : List Goal) (s : List Char) :
    fulfils (goal :: goals) ("(COUNT(DISTINCT ?".toList ++ (counted ++ (") AS ?".toList ++
      (raw ++ ')' :: s)))) = fulfils (.moreColumns :: goals) s := by
  have bracket : fulfils (goal :: goals) ("(COUNT(DISTINCT ?".toList ++ (counted ++ (") AS ?".toList ++
      (raw ++ ')' :: s)))) = fulfils (aliasGoals ++ .moreColumns :: goals)
        ("COUNT(DISTINCT ?".toList ++ (counted ++ ')' :: (" AS ?".toList ++ (raw ++ ')' :: s)))) :=
    fulfilsParenthesis column goals _
  rw [bracket]
  exact (fulfilsCountOf value _ _).trans (fulfilsAlias name _ s)

theorem fulfilsCoalesceColumn {source name : List Char} (value : IsWord source) (word : IsWord name)
    {goal : Goal} (column : IsColumnGoal goal) (goals : List Goal) (s : List Char) :
    fulfils (goal :: goals) ("(COALESCE(?".toList ++ (source ++ (", 0) AS ?".toList ++
      (name ++ ')' :: s)))) = fulfils (.moreColumns :: goals) s := by
  have bracket : fulfils (goal :: goals) ("(COALESCE(?".toList ++ (source ++ (", 0) AS ?".toList ++
      (name ++ ')' :: s)))) = fulfils (aliasGoals ++ .moreColumns :: goals)
        ("COALESCE(?".toList ++ (source ++ (", 0)".toList ++ (" AS ?".toList ++ (name ++ ')' :: s))))) :=
    fulfilsParenthesis column goals _
  rw [bracket]
  exact (fulfilsCoalesce value _ _).trans (fulfilsAlias word _ s)

theorem fulfilsInnerColumns {parent : Option (List Char)} {counted raw : List Char}
    (group : ∀ p ∈ parent, IsWord p) (value : IsWord counted) (name : IsWord raw) (goals : List Goal)
    (s : List Char) :
    fulfils (.maybe (.keyword .DISTINCT) :: .columns :: goals)
      ((parent.elim [] fun p => '?' :: p ++ [' ']) ++ ("(COUNT(DISTINCT ?".toList ++ (counted ++
        (") AS ?".toList ++ (raw ++ ')' :: s))))) = fulfils (.moreColumns :: goals) s := by
  cases parent with
  | none =>
      rw [Option.elim_none,List.nil_append]
      have undistinct : fulfils (.maybe (.keyword .DISTINCT) :: .columns :: goals)
          ("(COUNT(DISTINCT ?".toList ++ (counted ++ (") AS ?".toList ++ (raw ++ ')' :: s)))) =
          fulfils (.columns :: goals)
            ("(COUNT(DISTINCT ?".toList ++ (counted ++ (") AS ?".toList ++ (raw ++ ')' :: s)))) :=
        fulfilsLeft rfl rfl rfl (by simp) _
      rw [undistinct,fulfilsCountColumn value name (.inl rfl)]
  | some p =>
      have undistinct : ∀ t, fulfils (.maybe (.keyword .DISTINCT) :: .columns :: goals) ('?' :: t) =
          fulfils (.columns :: goals) ('?' :: t) := fun t => fulfilsLeft rfl rfl rfl (by simp) _
      rw [Option.elim_some,List.append_assoc,List.singleton_append,List.cons_append,undistinct,
        ← List.cons_append,fulfilsVarColumn (.inl rfl) (group p rfl) (spaceStopsVar _),
        fulfilsSpace rfl,fulfilsCountColumn value name (.inr rfl)]

theorem fulfilsGroupBy {name : List Char} (word : IsWord name) (goals : List Goal) {s : List Char}
    (done : AtLineEnd s) : fulfils (.groupBy :: goals) ("GROUP BY ?".toList ++ (name ++ s)) =
      fulfils (.moreGroupKeys :: goals) s := by
  have group : fulfils (.groupBy :: goals) ("GROUP BY ?".toList ++ (name ++ s)) =
      fulfils (.one (.keyword .BY) :: .groupKey :: goals) (" BY ?".toList ++ (name ++ s)) :=
    fulfilsOfAdvance rfl
  have by_ : fulfils (.one (.keyword .BY) :: .groupKey :: goals) (" BY ?".toList ++ (name ++ s)) =
      fulfils (.groupKey :: goals) (' ' :: ('?' :: name ++ s)) := fulfilsOfAdvance rfl
  rw [group,by_,fulfilsSpace rfl,fulfilsVar groupKeyTakesVar word (stopsAtLineEnd (by decide) done)]
  rfl

theorem expressionTakesVar : TakesVar .expression [] := by
  intro t s _ read
  simp [Goal.take,Goal.choices,expressionChoices,Lexeme.read,read]

theorem fulfilsOrderKey {name : List Char} (word : IsWord name) (goals : List Goal) (s : List Char) :
    fulfils (mark '(' :: .expression :: mark ')' :: goals) ("(?".toList ++ (name ++ ')' :: s)) =
      fulfils goals s := by
  have bracket : fulfils (mark '(' :: .expression :: mark ')' :: goals)
      ("(?".toList ++ (name ++ ')' :: s)) =
      fulfils (.expression :: mark ')' :: goals) ('?' :: name ++ ')' :: s) := fulfilsOfAdvance rfl
  rw [bracket,fulfilsVar expressionTakesVar word (stopsCons (by decide) s)]
  exact fulfilsOfAdvance rfl

theorem fulfilsOrderBy (direction : OrderDirection) {name : List Char} (word : IsWord name)
    (goals : List Goal) (s : List Char) :
    fulfils (.groupBy :: .orderBy :: goals) ("ORDER BY ".toList ++ (direction.label.toList ++
      ("(?".toList ++ (name ++ ')' :: s)))) = fulfils (.moreOrderKeys :: goals) s := by
  have order : fulfils (.groupBy :: .orderBy :: goals) ("ORDER BY ".toList ++ (direction.label.toList ++
      ("(?".toList ++ (name ++ ')' :: s)))) = fulfils (.one (.keyword .BY) :: .orderKey :: goals)
        (" BY ".toList ++ (direction.label.toList ++ ("(?".toList ++ (name ++ ')' :: s)))) :=
    fulfilsOfAdvance rfl
  have by_ : fulfils (.one (.keyword .BY) :: .orderKey :: goals)
        (" BY ".toList ++ (direction.label.toList ++ ("(?".toList ++ (name ++ ')' :: s)))) =
      fulfils (.orderKey :: goals)
        (' ' :: (direction.label.toList ++ ("(?".toList ++ (name ++ ')' :: s)))) := fulfilsOfAdvance rfl
  have directed : fulfils (.orderKey :: goals)
        (direction.label.toList ++ ("(?".toList ++ (name ++ ')' :: s))) =
      fulfils (mark '(' :: .expression :: mark ')' :: .moreOrderKeys :: goals)
        ("(?".toList ++ (name ++ ')' :: s)) := by
    cases direction <;> exact fulfilsOfAdvance rfl
  rw [order,by_,fulfilsSpace rfl,directed,fulfilsOrderKey word]

theorem readDigitsOf {digits s : List Char} (filled : digits ≠ [])
    (all : ∀ c ∈ digits, c.isDigit = true) (stop : Stops Char.isDigit s) :
    readDigits (digits ++ s) = some s := by
  cases digits with
  | nil => contradiction
  | cons c rest =>
      have run := dropWhileRun (fun d member => all d (List.mem_cons_of_mem _ member)) stop
      simp [readDigits,all c (by simp),run]

theorem fulfilsLimit (n : Nat) (goals : List Goal) {s : List Char} (done : AtLineEnd s) :
    fulfils (.limit :: goals) ("LIMIT ".toList ++ (Nat.toDigits 10 n ++ s)) = fulfils goals s := by
  have keyword : fulfils (.limit :: goals) ("LIMIT ".toList ++ (Nat.toDigits 10 n ++ s)) =
      fulfils (.one .digits :: goals) (' ' :: (Nat.toDigits 10 n ++ s)) := fulfilsOfAdvance rfl
  have digit : ∀ c ∈ Nat.toDigits 10 n, c.isDigit = true :=
    fun c member => Nat.isDigit_of_mem_toDigits (by decide) (by decide) member
  have read := readDigitsOf Nat.toDigits_ne_nil digit (stopsAtLineEnd (by decide) done)
  have visible : skip (Nat.toDigits 10 n ++ s) = Nat.toDigits 10 n ++ s := by
    cases h : Nat.toDigits 10 n with
    | nil => exact absurd h Nat.toDigits_ne_nil
    | cons c rest =>
        have start := wordCharIsVarStart (digitIsWordChar (digit c (by simp [h])))
        exact skipVisible (varStartVisible start) _
  rw [keyword,fulfilsSpace rfl]
  apply fulfilsOfAdvance
  rw [visible]
  have taken : Goal.take (.one .digits) (Nat.toDigits 10 n ++ s) = some ([],s) := by
    simp [Goal.take,Goal.choices,Lexeme.read,read]
  exact advanceTaken taken goals

theorem fulfilsDeclaration {label iri : List Char} (good : IsLabel label)
    (chars : ∀ c ∈ iri, isIriChar c = true) (goals : List Goal) (s : List Char) :
    fulfils (.prologue :: goals) ("PREFIX ".toList ++ (label ++ (": <".toList ++ (iri ++ '>' :: s)))) =
      fulfils (.prologue :: goals) s := by
  have keyword : fulfils (.prologue :: goals)
      ("PREFIX ".toList ++ (label ++ (": <".toList ++ (iri ++ '>' :: s)))) =
      fulfils (.one .label :: .one .iri :: .prologue :: goals)
        (' ' :: (label ++ (": <".toList ++ (iri ++ '>' :: s)))) := fulfilsOfAdvance rfl
  have labelled : fulfils (.one .label :: .one .iri :: .prologue :: goals)
        (label ++ (": <".toList ++ (iri ++ '>' :: s))) =
      fulfils (.one .iri :: .prologue :: goals) (' ' :: ('<' :: iri ++ '>' :: s)) := by
    have read := readLabelOf good (' ' :: ('<' :: iri ++ '>' :: s))
    obtain ⟨c,rest,rfl,letter,_⟩ := good
    apply fulfilsOfAdvance
    rw [List.cons_append,skipVisible (letterVisible letter)]
    have taken : Goal.take (.one .label) (c :: (rest ++ (": <".toList ++ (iri ++ '>' :: s)))) =
        some ([],' ' :: ('<' :: iri ++ '>' :: s)) := by
      rw [Goal.take]
      simp only [Goal.choices,List.findSome?_cons,Lexeme.read]
      rw [show c :: (rest ++ (": <".toList ++ (iri ++ '>' :: s))) =
        c :: rest ++ ':' :: (' ' :: ('<' :: iri ++ '>' :: s)) from rfl,read]
      rfl
    exact advanceTaken taken _
  have bracketed : fulfils (.one .iri :: .prologue :: goals) ('<' :: iri ++ '>' :: s) =
      fulfils (.prologue :: goals) s := by
    apply fulfilsOfAdvance
    rw [List.cons_append,skipVisible ⟨by decide,by decide⟩]
    have taken : Goal.take (.one .iri) ('<' :: (iri ++ '>' :: s)) = some ([],s) := by
      have read : readIri ('<' :: (iri ++ '>' :: s)) = some s := readIriChars chars s
      simp [Goal.take,Goal.choices,Lexeme.read,read]
    exact advanceTaken taken _
  rw [keyword,fulfilsSpace rfl,labelled,fulfilsSpace rfl,bracketed]

theorem fulfilsOuterSelect {s : List Char} (done : AtLineEnd s) :
    fulfils queryGoals ("SELECT DISTINCT".toList ++ s) =
      fulfils (.columns :: .maybe (.keyword .WHERE) :: mark '\x7b' :: .body ::
        [.groupBy,.orderBy,.limit]) s := by
  have select : fulfils queryGoals ("SELECT DISTINCT".toList ++ s) =
      fulfils selectGoals (" DISTINCT".toList ++ s) := fulfilsOfAdvance rfl
  rw [select]
  cases s with
  | nil => exact fulfilsOfAdvance rfl
  | cons c rest =>
      rw [done c rfl]
      exact fulfilsOfAdvance rfl

end PathQuery.Grammar
