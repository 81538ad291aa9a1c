import PathQuery.Grammar.Lexeme

/-! No reader stands still: each lexeme has at least one character, so a text can be read to its end. -/
namespace PathQuery.Grammar

def Progresses (read : Reader) : Prop := ∀ s rest, read s = some rest → rest.length < s.length

theorem progressesOr {first second : Reader} (a : Progresses first) (b : Progresses second) :
    Progresses fun s => (first s).or (second s) := by
  intro s rest h
  rcases Option.or_eq_some_iff.mp h with h | ⟨_,h⟩
  · exact a s rest h
  · exact b s rest h

theorem progressesFilter {read : Reader} (p : Progresses read) (test : List Char → Bool) :
    Progresses fun s => (read s).filter test :=
  fun s rest h => p s rest (Option.filter_eq_some_iff.mp h).1

theorem progressesMap {read : Reader} (p : Progresses read) {after : List Char → List Char}
    (still : ∀ s, (after s).length ≤ s.length) : Progresses fun s => (read s).map after := by
  intro s rest h
  obtain ⟨middle,first,rfl⟩ := Option.map_eq_some_iff.mp h
  exact Nat.lt_of_le_of_lt (still middle) (p s middle first)

theorem progressesOn {read : Reader} (p : Progresses read) {before : List Char → List Char}
    (still : ∀ s, (before s).length ≤ s.length) : Progresses fun s => read (before s) :=
  fun s rest h => Nat.lt_of_lt_of_le (p _ rest h) (still s)

theorem progressesBind {first second : Reader} (a : Progresses first) (b : Progresses second) :
    Progresses fun s => (first s).bind second := by
  intro s rest h
  obtain ⟨middle,one,two⟩ := Option.bind_eq_some_iff.mp h
  exact Nat.lt_trans (b middle rest two) (a s middle one)

theorem dropWhileLength (test : Char → Bool) (s : List Char) : (s.dropWhile test).length ≤ s.length :=
  (List.dropWhile_suffix test).length_le

theorem skipLength (s : List Char) : (skip s).length ≤ s.length := by
  suffices ∀ inComment, (skipFrom inComment s).length ≤ s.length from this false
  induction s with
  | nil => intro inComment; exact Nat.le_refl 0
  | cons c rest ih =>
      intro inComment
      have := ih (c != '\n')
      have := ih false
      have := ih true
      unfold skipFrom
      split
      · simp only [List.length_cons]; omega
      · split
        · simp only [List.length_cons]; omega
        · split
          · simp only [List.length_cons]; omega
          · exact Nat.le_refl _

theorem afterRunLength (isInner : Char → Bool) (s : List Char) : (afterRun isInner s).length ≤ s.length := by
  simp only [afterRun,List.length_drop]
  omega

theorem afterLocalLength (s : List Char) : (afterLocal s).length ≤ s.length := by
  unfold afterLocal
  split
  · split
    · exact Nat.le_succ_of_le (afterRunLength _ _)
    · exact Nat.le_refl _
  · exact Nat.le_refl _

theorem afterRepetitionLength (s : List Char) : (afterRepetition s).length ≤ s.length := by
  unfold afterRepetition
  split
  · split
    · exact Nat.le_succ _
    · exact Nat.le_refl _
  · exact Nat.le_refl _

theorem readMarkProgresses (c : Char) : Progresses (readMark c) := by
  intro s rest h
  unfold readMark at h
  split at h
  · split at h
    · cases Option.some.inj h; exact Nat.lt_succ_self _
    · contradiction
  · contradiction

theorem getDLength {read : Reader} (p : Progresses read) (s : List Char) :
    ((read s).getD s).length ≤ s.length := by
  cases h : read s with
  | none => exact Nat.le_refl _
  | some rest => exact Nat.le_of_lt (p s rest h)

theorem afterPointLength (s : List Char) : (afterPoint s).length ≤ s.length :=
  getDLength (readMarkProgresses '.') s

theorem afterSignLength (s : List Char) : (afterSign s).length ≤ s.length :=
  getDLength (progressesOr (readMarkProgresses '+') (readMarkProgresses '-')) s

theorem readLettersLength {word s rest : List Char} (h : readLetters word s = some rest) :
    rest.length + word.length = s.length := by
  induction word generalizing s with
  | nil => cases Option.some.inj h; rfl
  | cons capital more ih => cases s with
    | nil => contradiction
    | cons c s =>
        unfold readLetters at h
        split at h
        · have := ih h
          simp only [List.length_cons]
          omega
        · contradiction

theorem readKeywordProgresses (word : Keyword) : Progresses (readKeyword word) := by
  intro s rest h
  have := readLettersLength (Option.filter_eq_some_iff.mp h).1
  have : 0 < word.capitals.toList.length := by cases word <;> decide
  omega

theorem readIriProgresses : Progresses readIri :=
  progressesBind (readMarkProgresses '<') (progressesOn (readMarkProgresses '>') (dropWhileLength _))

theorem readVarProgresses : Progresses readVar := by
  intro s rest h
  unfold readVar at h
  split at h
  · split at h
    · cases Option.some.inj h
      exact Nat.lt_succ_of_le (Nat.le_succ_of_le (dropWhileLength _ _))
    · contradiction
  · contradiction

theorem readLabelProgresses : Progresses readLabel := by
  intro s rest h
  unfold readLabel at h
  split at h
  · next c s =>
      have shorter := readMarkProgresses ':' _ rest h
      split at shorter
      · exact Nat.lt_succ_of_lt (Nat.lt_of_lt_of_le shorter (afterRunLength isNameChar s))
      · exact shorter
  · contradiction

theorem readNameProgresses : Progresses readName :=
  progressesOr readIriProgresses (progressesMap readLabelProgresses afterLocalLength)

theorem readTermProgresses : Progresses readTerm := progressesOr readVarProgresses readNameProgresses

theorem readStepProgresses : Progresses readStep :=
  progressesMap (progressesOr readNameProgresses (readMarkProgresses 'a')) afterRepetitionLength

theorem readPathEndProgresses : Progresses readPathEnd :=
  progressesMap (readMarkProgresses ')') afterRepetitionLength

theorem readDigitsProgresses : Progresses readDigits := by
  intro s rest h
  unfold readDigits at h
  split at h
  · split at h
    · cases Option.some.inj h; exact Nat.lt_succ_of_le (dropWhileLength _ _)
    · contradiction
  · contradiction

theorem readFractionProgresses : Progresses readFraction :=
  progressesBind (progressesOn (readMarkProgresses '.') (dropWhileLength _)) readDigitsProgresses

theorem readExponentProgresses : Progresses readExponent :=
  progressesBind (progressesOr (readMarkProgresses 'e') (readMarkProgresses 'E'))
    (progressesOn readDigitsProgresses afterSignLength)

theorem readDoubleProgresses : Progresses readDouble :=
  progressesBind
    (progressesOr readFractionProgresses (progressesMap readDigitsProgresses afterPointLength))
    readExponentProgresses

theorem readNumberProgresses : Progresses readNumber :=
  progressesFilter (progressesOr readDoubleProgresses
    (progressesOr readFractionProgresses readDigitsProgresses)) _

theorem Lexeme.readProgresses (lexeme : Lexeme) : Progresses lexeme.read := by
  cases lexeme with
  | keyword word => exact readKeywordProgresses word
  | mark c => exact readMarkProgresses c
  | label => exact readLabelProgresses
  | iri => exact readIriProgresses
  | name => exact readNameProgresses
  | var => exact readVarProgresses
  | term => exact readTermProgresses
  | step => exact readStepProgresses
  | pathEnd => exact readPathEndProgresses
  | digits => exact readDigitsProgresses
  | number => exact readNumberProgresses

end PathQuery.Grammar
