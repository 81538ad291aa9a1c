import PathQuery.Grammar.Goal
import PathQuery.Proofs.Text.Word

/-! What the readers and the goals make of texts that are known in part: blanks, comments, words, names
and marks, each with any text behind it. -/
namespace PathQuery.Grammar

def AtLineEnd (s : List Char) : Prop := ∀ c ∈ s.head?, c = '\n'

theorem stopsAtLineEnd {test : Char → Bool} (other : test '\n' = false) {s : List Char}
    (done : AtLineEnd s) : Stops test s :=
  fun c head => done c head ▸ other

theorem fulfilsOfSkip {s t : List Char} (same : skip s = skip t) (goals : List Goal) :
    fulfils goals s = fulfils goals t := by
  rw [fulfils,fulfils,same]

theorem advanceNil (goals : List Goal) : advance [] goals = none := by
  cases h : advance [] goals with
  | none => rfl
  | some taken => exact absurd (advanceShortens h) (Nat.not_lt_zero _)

theorem fulfilsOfAdvance {s rest : List Char} {goals next : List Goal}
    (h : advance (skip s) goals = some (next,rest)) : fulfils goals s = fulfils next rest := by
  have filled : (skip s).isEmpty = false := by
    cases hs : skip s with
    | nil => rw [hs,advanceNil] at h; contradiction
    | cons c t => rfl
  rw [fulfils]
  simp only [filled,Bool.false_eq_true,if_false]
  split
  · next taken => rw [h] at taken; cases taken; rfl
  · next taken => rw [h] at taken; contradiction

theorem fulfilsNil (goals : List Goal) : fulfils goals [] = goals.all Goal.isOptional := by
  rw [fulfils]
  simp [skip,skipFrom]

theorem advanceTaken {goal : Goal} {more : List Goal} {s rest : List Char}
    (taken : goal.take s = some (more,rest)) (goals : List Goal) :
    advance s (goal :: goals) = some (more ++ goals,rest) := by
  rw [advance,taken]

theorem advanceLeft {goal : Goal} {s : List Char} (left : goal.take s = none)
    (may : goal.isOptional = true) (goals : List Goal) : advance s (goal :: goals) = advance s goals := by
  rw [advance,left]
  simp [may]

theorem fulfilsLeft {goal : Goal} {s : List Char} (visible : skip s = s) (left : goal.take s = none)
    (may : goal.isOptional = true) (filled : s ≠ []) (goals : List Goal) :
    fulfils (goal :: goals) s = fulfils goals s := by
  have some : s.isEmpty = false := by simpa using filled
  rw [fulfils,fulfils,visible,advanceLeft left may,some]
  rfl

theorem fulfilsSpace {c : Char} (space : isSpace c = true) (goals : List Goal) (s : List Char) :
    fulfils goals (c :: s) = fulfils goals s :=
  fulfilsOfSkip (by simp [skip,skipFrom,space]) goals

theorem fulfilsMargin {margin : List Char} (spaces : ∀ c ∈ margin, isSpace c = true) (goals : List Goal)
    (s : List Char) : fulfils goals (margin ++ s) = fulfils goals s := by
  induction margin with
  | nil => rfl
  | cons c rest ih =>
      rw [List.cons_append,fulfilsSpace (spaces c (by simp))]
      exact ih fun d member => spaces d (List.mem_cons_of_mem _ member)

theorem skipInComment {text s : List Char} (line : '\n' ∉ text) (done : AtLineEnd s) :
    skipFrom true (text ++ s) = skip s := by
  induction text with
  | nil => cases s with
    | nil => rfl
    | cons c rest => rw [done c rfl]; rfl
  | cons c rest ih =>
      have other : (c != '\n') = true := by
        simp only [List.mem_cons,not_or] at line
        simpa using Ne.symm line.1
      rw [List.cons_append,skipFrom,if_pos rfl,other]
      exact ih fun member => line (List.mem_cons_of_mem _ member)

theorem fulfilsComment {text s : List Char} (line : '\n' ∉ text) (done : AtLineEnd s)
    (goals : List Goal) : fulfils goals ('#' :: text ++ s) = fulfils goals s :=
  fulfilsOfSkip (show skip ('#' :: text ++ s) = skip s from skipInComment line done) goals

theorem afterRunOf {isInner : Char → Bool} {run s : List Char}
    (inside : ∀ c ∈ run, (isInner c || c == '.') = true) (last : run.getLast? ≠ some '.')
    (stop : Stops (fun c => isInner c || c == '.') s) : afterRun isInner (run ++ s) = s := by
  have kept : run.reverse.dropWhile (· == '.') = run.reverse := by
    rw [← List.head?_reverse] at last
    cases hr : run.reverse with
    | nil => rfl
    | cons c rest =>
        rw [hr] at last
        have : (c == '.') = false := by simpa using last
        simp [this]
  rw [afterRun,takeWhileRun inside stop,kept,List.length_reverse,List.drop_left]

theorem wordCharIsVarStart {c : Char} (h : QueryOptions.isVariableChar c = true) :
    isVarStart c = true := by
  simp only [QueryOptions.isVariableChar,Char.isAlphanum,Bool.or_eq_true] at h
  simp only [isVarStart,isLetter,Bool.or_eq_true]
  rcases h with (letter | digit) | mark
  · exact .inl (.inl (.inl letter))
  · exact .inr digit
  · exact .inl (.inr mark)

theorem wordCharIsVarChar {c : Char} (h : QueryOptions.isVariableChar c = true) :
    isVarChar c = true := by
  simp [isVarChar,wordCharIsVarStart h]

theorem readVarWord {name s : List Char} (word : IsWord name) (stop : Stops isVarChar s) :
    readVar ('?' :: name ++ s) = some s := by
  obtain ⟨filled,chars⟩ := word
  cases name with
  | nil => contradiction
  | cons c rest =>
      have start := wordCharIsVarStart (chars c (by simp))
      have run := dropWhileRun (fun d member => wordCharIsVarChar (chars d (List.mem_cons_of_mem _ member))) stop
      simp [readVar,start,run]

theorem readVarOther {c : Char} (other : (c == '?' || c == '$') = false) (s : List Char) :
    readVar (c :: s) = none := by
  cases s with
  | nil => rfl
  | cons d rest => simp [readVar,other]

theorem readIriChars {iri : List Char} (chars : ∀ c ∈ iri, isIriChar c = true) (s : List Char) :
    readIri ('<' :: iri ++ '>' :: s) = some s := by
  have run := dropWhileRun chars (stopsCons (show isIriChar '>' = false by decide) s)
  simp [readIri,readMark,run]

def IsLabel (label : List Char) : Prop :=
  ∃ c rest, label = c :: rest ∧ isLetter c = true ∧
    (∀ d ∈ rest, (isNameChar d || d == '.') = true) ∧ rest.getLast? ≠ some '.'

theorem readLabelOf {label : List Char} (good : IsLabel label) (s : List Char) :
    readLabel (label ++ ':' :: s) = some s := by
  obtain ⟨c,rest,rfl,letter,inside,last⟩ := good
  have stop : Stops (fun d => isNameChar d || d == '.') (':' :: s) := stopsCons (by decide) s
  simp [readLabel,letter,afterRunOf inside last stop,readMark]

theorem localStartIsVarStart {c : Char} (h : NamespaceTable.isLocalStart c = true) :
    isVarStart c = true := wordCharIsVarStart h

theorem localCharIsLocalChar {c : Char} (h : (NamespaceTable.isLocalEnd c || c == '.') = true) :
    (isLocalChar c || c == '.') = true := by
  simp only [NamespaceTable.isLocalEnd,Bool.or_eq_true] at h
  simp only [isLocalChar,isNameChar,Bool.or_eq_true]
  rcases h with (start | hyphen) | point
  · have := localStartIsVarStart start
    simp [isVarChar,this]
  · simp [hyphen]
  · exact .inr point

theorem afterLocalOf {name s : List Char} (plain : NamespaceTable.isPlainLocal name = true)
    (stop : Stops (fun c => isLocalChar c || c == '.') s) : afterLocal (name ++ s) = s := by
  simp only [NamespaceTable.isPlainLocal,Bool.and_eq_true,List.all_eq_true] at plain
  obtain ⟨⟨start,last⟩,inside⟩ := plain
  cases name with
  | nil => simp at start
  | cons c rest =>
      have solid : rest.getLast? ≠ some '.' := by
        intro point
        have : (c :: rest).getLast? = some '.' := by
          cases rest with
          | nil => simp at point
          | cons d more => simpa using point
        rw [this] at last
        exact absurd last (by decide)
      have run := afterRunOf
        (fun d member => localCharIsLocalChar (inside d (List.mem_cons_of_mem _ member))) solid stop
      have opening : isVarStart c = true := localStartIsVarStart (by simpa using start)
      simp [afterLocal,opening,run]

inductive NameText : List Char → Prop where
  | full {iri : List Char} (chars : ∀ c ∈ iri, isIriChar c = true) : NameText ('<' :: iri ++ ['>'])
  | short {label name : List Char} (good : IsLabel label)
      (plain : NamespaceTable.isPlainLocal name = true) : NameText (label ++ ':' :: name)

theorem readNameOf {text : List Char} (name : NameText text) {s : List Char}
    (stop : Stops (fun c => isLocalChar c || c == '.') s) : readName (text ++ s) = some s := by
  cases name with
  | full chars =>
      have whole := readIriChars chars s
      simp only [List.cons_append,List.append_assoc,List.nil_append] at whole ⊢
      rw [readName,whole]
      rfl
  | @short label name good plain =>
      have unbracketed : readIri (label ++ ':' :: name ++ s) = none := by
        obtain ⟨c,rest,rfl,letter,_⟩ := good
        have : c ≠ '<' := by rintro rfl; exact absurd letter (by decide)
        simp [readIri,readMark,this]
      have labelled := readLabelOf good (name ++ s)
      rw [readName,unbracketed,List.append_assoc,List.cons_append,labelled,Option.map_some,
        afterLocalOf plain stop]
      rfl

end PathQuery.Grammar
