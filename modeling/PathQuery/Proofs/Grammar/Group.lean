import PathQuery.Proofs.Grammar.Reading

/-! How the body of a group is read: triples, optional groups and comments, each on lines of its own. -/
namespace PathQuery.Grammar

def IsGroupGoal (goal : Goal) : Prop := goal = .body ∨ goal = .patterns ∨ goal = .afterPattern

def Ready (goals : List Goal) (s : List Char) : Prop :=
  ∀ goal, IsGroupGoal goal → fulfils (goal :: goals) s = true

theorem readyOf {goals next : List Goal} {goal : Goal} {s rest : List Char} (some : IsGroupGoal goal)
    (same : ∀ first, IsGroupGoal first → fulfils (first :: goals) s = fulfils (goal :: next) rest)
    (ready : Ready next rest) : Ready goals s := by
  intro first h
  rw [same first h]
  exact ready goal some

theorem readySkip {goals : List Goal} {s rest : List Char} (same : skip s = skip rest)
    (ready : Ready goals rest) : Ready goals s := by
  intro first h
  rw [fulfilsOfSkip same]
  exact ready first h

def IsVisible (c : Char) : Prop := isSpace c = false ∧ c ≠ '#'

theorem skipVisible {c : Char} (visible : IsVisible c) (s : List Char) : skip (c :: s) = c :: s := by
  simp [skip,skipFrom,visible.1,visible.2]

theorem varStartVisible {c : Char} (start : isVarStart c = true) : IsVisible c := by
  constructor
  · cases space : isSpace c with
    | false => rfl
    | true =>
        simp only [isSpace,Bool.or_eq_true,beq_iff_eq] at space
        rcases space with ((rfl | rfl) | rfl) | rfl <;> exact absurd start (by decide)
  · rintro rfl
    exact absurd start (by decide)

theorem letterVisible {c : Char} (letter : isLetter c = true) : IsVisible c :=
  varStartVisible (by simp [isVarStart,letter])

theorem nameOpens {text : List Char} (name : NameText text) :
    ∃ c rest, text = c :: rest ∧ (c = '<' ∨ isLetter c = true) := by
  cases name with
  | full chars => exact ⟨'<',_,rfl,.inl rfl⟩
  | short good plain =>
      obtain ⟨c,rest,rfl,letter,_⟩ := good
      exact ⟨c,_,rfl,.inr letter⟩

theorem openingVisible {c : Char} (opening : c = '<' ∨ isLetter c = true) : IsVisible c := by
  rcases opening with rfl | letter
  · exact ⟨by decide,by decide⟩
  · exact letterVisible letter

theorem openingOther {c : Char} (opening : c = '<' ∨ isLetter c = true) {d : Char}
    (bracket : d ≠ '<') (letter : isLetter d = false) : c ≠ d := by
  rcases opening with rfl | h
  · exact Ne.symm bracket
  · rintro rfl
    simp [letter] at h

theorem openingNoVar {c : Char} (opening : c = '<' ∨ isLetter c = true) (s : List Char) :
    readVar (c :: s) = none := by
  have question : c ≠ '?' := openingOther opening (by decide) (by decide)
  have dollar : c ≠ '$' := openingOther opening (by decide) (by decide)
  exact readVarOther (by simp [question,dollar]) s

inductive VerbText : List Char → Prop where
  | kind : VerbText ['a']
  | name {text : List Char} (h : NameText text) : VerbText text

inductive ObjectText : List Char → Prop where
  | var {name : List Char} (word : IsWord name) : ObjectText ('?' :: name)
  | name {text : List Char} (h : NameText text) : ObjectText text

theorem spaceStopsLocal (s : List Char) : Stops (fun c => isLocalChar c || c == '.') (' ' :: s) :=
  stopsCons (by decide) s

theorem spaceStopsVar (s : List Char) : Stops isVarChar (' ' :: s) := stopsCons (by decide) s

theorem readStepOf {text : List Char} (verb : VerbText text) (s : List Char) :
    readStep (text ++ ' ' :: s) = some (' ' :: s) := by
  cases verb with
  | kind => rfl
  | name h => rw [readStep,readNameOf h (spaceStopsLocal s)]; rfl

theorem verbOpens {text : List Char} (verb : VerbText text) :
    ∃ c rest, text = c :: rest ∧ (c = '<' ∨ isLetter c = true) := by
  cases verb with
  | kind => exact ⟨'a',[],rfl,.inr (by decide)⟩
  | name h => exact nameOpens h

theorem fulfilsVerb {text : List Char} (verb : VerbText text) (goals : List Goal) (s : List Char) :
    fulfils (.verb :: goals) (text ++ ' ' :: s) = fulfils (.morePath :: goals) (' ' :: s) := by
  have step := readStepOf verb s
  obtain ⟨c,rest,rfl,opening⟩ := verbOpens verb
  apply fulfilsOfAdvance
  rw [List.cons_append,skipVisible (openingVisible opening)]
  have taken : Goal.take .verb (c :: (rest ++ ' ' :: s)) = some ([.morePath],' ' :: s) := by
    rw [List.cons_append] at step
    simp [Goal.take,Goal.choices,verbChoices,pathChoices,pathPartChoices,followedBy,Lexeme.read,
      openingNoVar opening,step]
  exact advanceTaken taken goals

theorem fulfilsObject {text : List Char} (object : ObjectText text) (goals : List Goal)
    (s : List Char) : fulfils (.morePath :: .one .term :: goals) (text ++ ' ' :: s) =
      fulfils goals (' ' :: s) := by
  have read : ∃ c rest, text = c :: rest ∧ IsVisible c ∧ c ≠ '/' ∧ c ≠ '|' ∧
      readTerm (text ++ ' ' :: s) = some (' ' :: s) := by
    cases object with
    | @var name word =>
        refine ⟨'?',name,rfl,⟨by decide,by decide⟩,by decide,by decide,?_⟩
        rw [readTerm,readVarWord word (spaceStopsVar s)]
        rfl
    | name h =>
        have whole := readNameOf h (spaceStopsLocal s)
        obtain ⟨c,rest,rfl,opening⟩ := nameOpens h
        refine ⟨c,rest,rfl,openingVisible opening,openingOther opening (by decide) (by decide),
          openingOther opening (by decide) (by decide),?_⟩
        rw [List.cons_append] at whole ⊢
        rw [readTerm,openingNoVar opening,whole]
        rfl
  obtain ⟨c,rest,rfl,visible,slash,bar,term⟩ := read
  apply fulfilsOfAdvance
  rw [List.cons_append] at term ⊢
  rw [skipVisible visible]
  have left : Goal.take .morePath (c :: (rest ++ ' ' :: s)) = none := by
    simp [Goal.take,Goal.choices,Lexeme.read,readMark,slash,bar]
  have taken : Goal.take (.one .term) (c :: (rest ++ ' ' :: s)) = some ([],' ' :: s) := by
    simp [Goal.take,Goal.choices,Lexeme.read,term]
  rw [advanceLeft left rfl,advanceTaken taken]
  rfl

theorem fulfilsSubject {goal : Goal} (some : IsGroupGoal goal) {name : List Char} (word : IsWord name)
    (goals : List Goal) (s : List Char) :
    fulfils (goal :: goals) ('?' :: name ++ ' ' :: s) =
      fulfils (.verb :: .one .term :: .afterObject :: goals) (' ' :: s) := by
  have read : readVar ('?' :: (name ++ ' ' :: s)) = Option.some (' ' :: s) :=
    readVarWord word (spaceStopsVar s)
  apply fulfilsOfAdvance
  rw [List.cons_append,skipVisible ⟨by decide,by decide⟩]
  have taken : goal.take ('?' :: (name ++ ' ' :: s)) = Option.some (.verb :: objectGoals,' ' :: s) := by
    rcases some with rfl | rfl | rfl <;>
      simp [Goal.take,Goal.choices,tripleChoice,Lexeme.read,readTerm,read,readMark]
  rw [advanceTaken taken]
  rfl

theorem fulfilsPoint (goals : List Goal) (s : List Char) :
    fulfils (.afterObject :: goals) (' ' :: '.' :: s) = fulfils (.patterns :: goals) s :=
  fulfilsOfAdvance rfl

theorem fulfilsTriple {goal : Goal} (some : IsGroupGoal goal) {name verb object : List Char}
    (subjectWord : IsWord name) (verbText : VerbText verb) (objectText : ObjectText object)
    (goals : List Goal) (s : List Char) :
    fulfils (goal :: goals) ('?' :: name ++ ' ' :: (verb ++ ' ' :: (object ++ ' ' :: '.' :: s))) =
      fulfils (.patterns :: goals) s := by
  rw [fulfilsSubject some subjectWord,fulfilsSpace rfl,fulfilsVerb verbText,fulfilsSpace rfl,
    fulfilsObject objectText,fulfilsPoint]

theorem readyTriple {goals : List Goal} {s : List Char} {name verb object : List Char}
    (subjectWord : IsWord name) (verbText : VerbText verb) (objectText : ObjectText object)
    (ready : Ready goals s) :
    Ready goals ('?' :: name ++ ' ' :: (verb ++ ' ' :: (object ++ ' ' :: '.' :: s))) :=
  readyOf (.inr (.inl rfl))
    (fun _ some => fulfilsTriple some subjectWord verbText objectText goals s) ready

theorem takeOpening {goal : Goal} (some : IsGroupGoal goal) (s : List Char) :
    goal.take ('\x7b' :: s) = Option.some ([.body,.afterPattern],s) := by
  rcases some with rfl | rfl | rfl <;> cases s <;> rfl

theorem takeClosing {goal : Goal} (some : IsGroupGoal goal) (s : List Char) :
    goal.take ('\x7d' :: s) = Option.some ([],s) := by
  rcases some with rfl | rfl | rfl <;> cases s <;> rfl

theorem takeOptional {goal : Goal} (some : IsGroupGoal goal) (s : List Char) :
    goal.take ("OPTIONAL \x7b".toList ++ s) =
      Option.some ([mark '\x7b',.body,.afterPattern],' ' :: '\x7b' :: s) := by
  rcases some with rfl | rfl | rfl <;> rfl

theorem readyOpening {goals : List Goal} {s : List Char}
    (body : fulfils (.body :: .afterPattern :: goals) s = true) : Ready goals ('\x7b' :: s) := by
  intro goal some
  rw [← body]
  exact fulfilsOfAdvance (advanceTaken (takeOpening some s) goals)

theorem readyClosing {goals : List Goal} {s : List Char} (outside : fulfils goals s = true) :
    Ready goals ('\x7d' :: s) := by
  intro goal some
  rw [← outside]
  exact fulfilsOfAdvance (advanceTaken (takeClosing some s) goals)

theorem readyOptional {goals : List Goal} {s : List Char} (inside : Ready (.afterPattern :: goals) s) :
    Ready goals ("OPTIONAL \x7b".toList ++ s) := by
  intro goal some
  rw [← inside .body (.inl rfl)]
  have word : skip ("OPTIONAL \x7b".toList ++ s) = "OPTIONAL \x7b".toList ++ s := rfl
  have keyword : fulfils (goal :: goals) ("OPTIONAL \x7b".toList ++ s) =
      fulfils (mark '\x7b' :: .body :: .afterPattern :: goals) (' ' :: '\x7b' :: s) :=
    fulfilsOfAdvance (word ▸ advanceTaken (takeOptional some s) goals)
  have brace : fulfils (mark '\x7b' :: .body :: .afterPattern :: goals) (' ' :: '\x7b' :: s) =
      fulfils (.body :: .afterPattern :: goals) s := fulfilsOfAdvance rfl
  exact keyword.trans brace

theorem readyMargin {margin : List Char} (spaces : ∀ c ∈ margin, isSpace c = true) {goals : List Goal}
    {s : List Char} (ready : Ready goals s) : Ready goals (margin ++ s) := by
  intro goal some
  rw [fulfilsMargin spaces]
  exact ready goal some

theorem readyBreak {goals : List Goal} {s : List Char} (ready : Ready goals s) : Ready goals ('\n' :: s) :=
  readySkip (show skip ('\n' :: s) = skip s from rfl) ready

theorem readyComment {text : List Char} (line : '\n' ∉ text) {goals : List Goal} {s : List Char}
    (done : AtLineEnd s) (ready : Ready goals s) : Ready goals ('#' :: text ++ s) :=
  readySkip (show skip ('#' :: text ++ s) = skip s from skipInComment line done) ready

def scopeGoals (open_ : Nat) (goals : List Goal) : List Goal := List.replicate open_ .afterPattern ++ goals

theorem readyScopeEnd {open_ : Nat} {goals : List Goal} {s : List Char}
    (ready : Ready (scopeGoals open_ goals) s) : Ready (scopeGoals (open_ + 1) goals) ('\x7d' :: s) :=
  readyClosing (ready .afterPattern (.inr (.inr rfl)))

end PathQuery.Grammar
