import PathQuery.Proofs.Grammar.Reading

/-! A text is read line by line: no part of a query reaches past the end of its line, so what stands before
a line break is read as if the text ended there. -/
namespace PathQuery.Grammar

instance decidableInText (s : List Char) (test : Char → Prop) [DecidablePred test] : Decidable (∀ c ∈ s, test c) :=
  List.decidableBAll test s

def blanks : List Char :=
  ([9,10,11,12,13,28,29,30,31,32,0x85,0xA0,0x1680] ++ (List.range 11).map (0x2000 + ·) ++
    [0x2028,0x2029,0x202F,0x205F,0x3000]).map Char.ofNat

theorem blankListed {c : Char} (blank : Text.isBlank c = true) : c ∈ blanks := by
  have code : c.toNat ∈ [9,10,11,12,13,28,29,30,31,32,0x85,0xA0,0x1680] ++ (List.range 11).map (0x2000 + ·) ++
      [0x2028,0x2029,0x202F,0x205F,0x3000] := by
    simp only [Text.isBlank,Bool.or_eq_true,Bool.and_eq_true,decide_eq_true_eq,beq_iff_eq] at blank
    simp only [List.mem_append,List.mem_cons,List.not_mem_nil,or_false,List.mem_map,List.mem_range]
    by_cases low : 0x2000 ≤ c.toNat ∧ c.toNat ≤ 0x200A
    · exact .inl (.inr ⟨c.toNat - 0x2000,by omega,by omega⟩)
    · omega
  exact Char.ofNat_toNat c ▸ List.mem_map_of_mem code

/-- Opens with a blank, or is empty. -/
def Parted (tail : List Char) : Prop := Stops (fun c => !Text.isBlank c) tail

theorem partedStops {tail : List Char} (parted : Parted tail) {test : Char → Bool}
    (others : ∀ c ∈ blanks, test c = false) : Stops test tail :=
  fun c head => others c (blankListed (by simpa using parted c head))

theorem upperBlank : ∀ c ∈ blanks, Text.upperChar c = [c] := by decide +kernel

theorem keywordBlank : ∀ c ∈ blanks, isKeywordChar c = false := by decide +kernel

def Ends (tail : List Char) (read : Reader) : Prop := ∀ x, read (x ++ tail) = (read x).map (· ++ tail)

def Spares (tail : List Char) (after : List Char → List Char) : Prop := ∀ x, after (x ++ tail) = after x ++ tail

section

variable {tail : List Char}

theorem endsOr {first second : Reader} (a : Ends tail first) (b : Ends tail second) :
    Ends tail fun s => (first s).or (second s) := by
  intro x
  simp only [a x,b x]
  cases first x <;> rfl

theorem endsMap {read : Reader} (a : Ends tail read) {after : List Char → List Char} (b : Spares tail after) :
    Ends tail fun s => (read s).map after := by
  intro x
  simp only [a x,Option.map_map]
  congr 1
  exact funext b

theorem endsOn {read : Reader} (a : Ends tail read) {before : List Char → List Char} (b : Spares tail before) :
    Ends tail fun s => read (before s) := by
  intro x
  exact (congrArg read (b x)).trans (a (before x))

theorem endsBind {first second : Reader} (a : Ends tail first) (b : Ends tail second) :
    Ends tail fun s => (first s).bind second := by
  intro x
  simp only [a x]
  cases first x with
  | none => rfl
  | some rest => exact b rest

theorem endsFilter {read : Reader} (a : Ends tail read) {test : List Char → Bool}
    (b : ∀ x, test (x ++ tail) = test x) : Ends tail fun s => (read s).filter test := by
  intro x
  simp only [a x]
  cases read x with
  | none => rfl
  | some rest =>
      simp only [Option.map_some,Option.filter,b rest]
      split <;> rfl

theorem sparesGetD {read : Reader} (a : Ends tail read) : Spares tail fun s => (read s).getD s := by
  intro x
  simp only [a x]
  cases read x <;> rfl

theorem sparesDropWhile {test : Char → Bool} (stop : Stops test tail) : Spares tail (List.dropWhile test) := by
  intro x
  induction x with
  | nil => exact @dropWhileRun _ [] _ nofun stop
  | cons c rest ih =>
      rw [List.cons_append,List.dropWhile_cons,List.dropWhile_cons]
      split
      · exact ih
      · rfl

theorem takeWhileBefore {test : Char → Bool} (stop : Stops test tail) (x : List Char) :
    (x ++ tail).takeWhile test = x.takeWhile test := by
  induction x with
  | nil => exact @takeWhileRun _ [] _ nofun stop
  | cons c rest ih => rw [List.cons_append,List.takeWhile_cons,List.takeWhile_cons,ih]

theorem runSpared {isInner : Char → Bool} {x : List Char}
    (same : (x ++ tail).takeWhile (fun c => isInner c || c == '.') = x.takeWhile fun c => isInner c || c == '.') :
    afterRun isInner (x ++ tail) = afterRun isInner x ++ tail := by
  unfold afterRun
  rw [same,List.drop_append_of_le_length]
  calc _ ≤ (x.takeWhile fun c => isInner c || c == '.').reverse.length := dropWhileLength _ _
    _ ≤ x.length := by
      rw [List.length_reverse]
      exact (List.takeWhile_prefix _).length_le

theorem sparesRun {isInner : Char → Bool} (stop : Stops (fun c => isInner c || c == '.') tail) :
    Spares tail (afterRun isInner) := fun x => runSpared (takeWhileBefore stop x)

theorem sparesRepetition (stop : Stops (fun c => c == '?' || c == '*' || c == '+') tail) :
    Spares tail afterRepetition := by
  intro x
  cases x with
  | nil =>
      cases tail with
      | nil => rfl
      | cons c rest => simp [afterRepetition,stop c rfl]
  | cons c rest =>
      simp only [afterRepetition,List.cons_append]
      split <;> rfl

theorem endsMark {c : Char} (stop : Stops (· == c) tail) : Ends tail (readMark c) := by
  intro x
  cases x with
  | nil =>
      cases tail with
      | nil => rfl
      | cons d rest =>
          have other := stop d rfl
          simp only [beq_eq_false_iff_ne] at other
          simp [readMark,other]
  | cons d rest =>
      simp only [readMark,List.cons_append]
      split <;> rfl

theorem endsLetters {word : List Char} (letters : ∀ c ∈ word, Stops (isFormOf c) tail) :
    Ends tail (readLetters word) := by
  intro x
  induction word generalizing x with
  | nil => rfl
  | cons capital more ih =>
      cases x with
      | nil =>
          cases tail with
          | nil => rfl
          | cons c rest => simp [readLetters,letters capital List.mem_cons_self c rfl]
      | cons c rest =>
          simp only [readLetters,List.cons_append]
          split
          · exact ih (fun d member => letters d (List.mem_cons_of_mem _ member)) rest
          · rfl

theorem endsUpTo {test : Char → Bool} {c : Char} (stop : Stops (· == c) tail)
    (closed : readMark c (tail.dropWhile test) = none) : Ends tail fun s => readMark c (s.dropWhile test) := by
  intro x
  induction x with
  | nil => simpa [readMark] using closed
  | cons d rest ih =>
      simp only [List.cons_append,List.dropWhile_cons]
      split
      · exact ih
      · exact endsMark stop (d :: rest)

theorem endsVar (start : Stops isVarStart tail) (stop : Stops isVarChar tail)
    (mark : Stops (fun c => c == '?' || c == '$') tail) : Ends tail readVar := by
  intro x
  match x with
  | [] =>
      cases tail with
      | nil => rfl
      | cons c rest => exact readVarOther (mark c rfl) rest
  | [mark] =>
      cases tail with
      | nil => rfl
      | cons c rest => simp [readVar,start c rfl]
  | mark :: c :: rest =>
      simp only [readVar,List.cons_append]
      split
      · simp [sparesDropWhile stop rest]
      · rfl

theorem endsDigits (stop : Stops Char.isDigit tail) : Ends tail readDigits := by
  intro x
  cases x with
  | nil =>
      cases tail with
      | nil => rfl
      | cons c rest => simp [readDigits,stop c rfl]
  | cons c rest =>
      simp only [readDigits,List.cons_append]
      split
      · simp [sparesDropWhile stop rest]
      · rfl

section

variable (parted : Parted tail)

include parted

theorem apartBefore (x : List Char) : isApart (x ++ tail) = isApart x := by
  cases x with
  | nil =>
      cases tail with
      | nil => rfl
      | cons c rest => simp [isApart,partedStops parted keywordBlank c rfl]
  | cons c rest => rfl

theorem endsKeyword (word : Keyword) : Ends tail (readKeyword word) := by
  have letters : ∀ capital ∈ word.capitals.toList, capital ∉ blanks := by cases word <;> decide
  refine endsFilter (endsLetters fun capital member => partedStops parted fun c blank => ?_) (apartBefore parted)
  have other : c ≠ capital := fun same => letters capital member (same ▸ blank)
  simp [isFormOf,upperBlank c blank,other]

theorem endsDot {c : Char} (visible : c ∉ blanks) : Ends tail (readMark c) :=
  endsMark (partedStops parted fun _ blank => beq_eq_false_iff_ne.mpr fun same => visible (same ▸ blank))

theorem endsIri (closed : readMark '>' (tail.dropWhile isIriChar) = none) : Ends tail readIri :=
  endsBind (endsDot parted (by decide)) (endsUpTo (partedStops parted (by decide)) closed)

theorem endsPathEnd : Ends tail readPathEnd :=
  endsMap (endsDot parted (by decide)) (sparesRepetition (partedStops parted (by decide)))

theorem endsWholeNumber : Ends tail readDigits := endsDigits (partedStops parted (by decide))

theorem endsFraction : Ends tail readFraction :=
  endsBind (endsOn (endsDot parted (by decide)) (sparesDropWhile (partedStops parted (by decide))))
    (endsWholeNumber parted)

theorem endsExponent : Ends tail readExponent :=
  endsBind (endsOr (endsDot parted (by decide)) (endsDot parted (by decide)))
    (endsOn (endsWholeNumber parted)
      (sparesGetD (endsOr (endsDot parted (by decide)) (endsDot parted (by decide)))))

theorem endsDouble : Ends tail readDouble :=
  endsBind (endsOr (endsFraction parted) (endsMap (endsWholeNumber parted) (sparesGetD (endsDot parted (by decide)))))
    (endsExponent parted)

theorem endsNumber : Ends tail readNumber :=
  endsFilter (endsOr (endsDouble parted) (endsOr (endsFraction parted) (endsWholeNumber parted))) (apartBefore parted)

end

end

theorem lineParted (s : List Char) : Parted ('\n' :: s) := stopsCons (by decide) s

theorem endsLabel (s : List Char) : Ends ('\n' :: s) readLabel := by
  intro x
  have colon : Ends ('\n' :: s) (readMark ':') := endsDot (lineParted s) (by decide)
  cases x with
  | nil => simp [readLabel,readMark,show isLetter '\n' = false by decide]
  | cons c rest =>
      simp only [readLabel,List.cons_append]
      split
      · rw [sparesRun (stopsCons (by decide) s),colon]
      · exact colon (c :: rest)

theorem sparesLocal (s : List Char) : Spares ('\n' :: s) afterLocal := by
  intro x
  cases x with
  | nil => rfl
  | cons c rest =>
      simp only [afterLocal,List.cons_append]
      split
      · exact sparesRun (stopsCons (by decide) s) rest
      · rfl

theorem endsName (s : List Char) : Ends ('\n' :: s) readName :=
  endsOr (endsIri (lineParted s) rfl) (endsMap (endsLabel s) (sparesLocal s))

theorem endsLineVar (s : List Char) : Ends ('\n' :: s) readVar :=
  endsVar (stopsCons (by decide) s) (stopsCons (by decide) s) (stopsCons (by decide) s)

theorem endsTerm (s : List Char) : Ends ('\n' :: s) readTerm := endsOr (endsLineVar s) (endsName s)

theorem endsStep (s : List Char) : Ends ('\n' :: s) readStep :=
  endsMap (endsOr (endsName s) (endsDot (lineParted s) (by decide))) (sparesRepetition (stopsCons (by decide) s))

theorem Lexeme.readEnds (lexeme : Lexeme) {x : List Char} (filled : x ≠ []) (s : List Char) :
    lexeme.read (x ++ '\n' :: s) = (lexeme.read x).map (· ++ '\n' :: s) := by
  cases lexeme with
  | mark c =>
      cases x with
      | nil => contradiction
      | cons d rest =>
          simp only [Lexeme.read,readMark,List.cons_append]
          split <;> rfl
  | keyword word => exact endsKeyword (lineParted s) word x
  | label => exact endsLabel s x
  | iri => exact endsIri (lineParted s) rfl x
  | name => exact endsName s x
  | var => exact endsLineVar s x
  | term => exact endsTerm s x
  | step => exact endsStep s x
  | pathEnd => exact endsPathEnd (lineParted s) x
  | digits => exact endsWholeNumber (lineParted s) x
  | number => exact endsNumber (lineParted s) x

theorem takeEnds (goal : Goal) {x : List Char} (filled : x ≠ []) (s : List Char) :
    goal.take (x ++ '\n' :: s) = (goal.take x).map fun taken => (taken.1,taken.2 ++ '\n' :: s) := by
  unfold Goal.take
  induction goal.choices with
  | nil => rfl
  | cons choice rest ih =>
      obtain ⟨lexeme,more⟩ := choice
      simp only [List.findSome?_cons,lexeme.readEnds filled s]
      cases lexeme.read x with
      | none => exact ih
      | some left => rfl

theorem advanceEnds (goals : List Goal) {x : List Char} (filled : x ≠ []) (s : List Char) :
    advance (x ++ '\n' :: s) goals = (advance x goals).map fun taken => (taken.1,taken.2 ++ '\n' :: s) := by
  induction goals with
  | nil => rfl
  | cons goal rest ih =>
      rw [advance,advance,takeEnds goal filled s]
      cases goal.take x with
      | some taken => rfl
      | none =>
          simp only [Option.map_none]
          split
          · exact ih
          · rfl

theorem skipEnds (x s : List Char) (inComment : Bool) : skipFrom inComment (x ++ '\n' :: s) =
    if skipFrom inComment x = [] then skip s else skipFrom inComment x ++ '\n' :: s := by
  induction x generalizing inComment with
  | nil => cases inComment <;> rfl
  | cons c rest ih =>
      simp only [List.cons_append,skipFrom]
      split
      · exact ih _
      · split
        · exact ih _
        · split
          · exact ih _
          · rfl

theorem fulfilsStuck {goals : List Goal} {s : List Char} (visible : skip s ≠ [])
    (stuck : advance (skip s) goals = none) : fulfils goals s = false := by
  have filled : (skip s).isEmpty = false := by simpa using visible
  rw [fulfils]
  simp only [filled,Bool.false_eq_true,if_false]
  split
  · next taken => rw [stuck] at taken; contradiction
  · rfl

theorem fulfilsBehind {s t : List Char} (same : skip s = skip t) (x : List Char) (goals : List Goal) :
    fulfils goals (x ++ '\n' :: s) = fulfils goals (x ++ '\n' :: t) := by
  have ends : ∀ s, skip (x ++ '\n' :: s) = if skip x = [] then skip s else skip x ++ '\n' :: s :=
    fun s => skipEnds x s false
  by_cases blank : skip x = []
  · refine fulfilsOfSkip ?_ goals
    rw [ends,ends,if_pos blank,if_pos blank,same]
  · have shown : ∀ s, advance (skip (x ++ '\n' :: s)) goals =
        (advance (skip x) goals).map fun taken => (taken.1,taken.2 ++ '\n' :: s) := by
      intro s
      rw [ends,if_neg blank]
      exact advanceEnds goals blank s
    cases taken : advance (skip x) goals with
    | none =>
        have stuck : ∀ s, fulfils goals (x ++ '\n' :: s) = false := fun s =>
          fulfilsStuck (by simp [ends,blank]) (by rw [shown,taken]; rfl)
        rw [stuck,stuck]
    | some found =>
        have shorter : found.2.length < x.length :=
          Nat.lt_of_lt_of_le (advanceShortens taken) (skipLength x)
        have onward : ∀ s, fulfils goals (x ++ '\n' :: s) = fulfils found.1 (found.2 ++ '\n' :: s) :=
          fun s => fulfilsOfAdvance (by rw [shown,taken]; rfl)
        rw [onward,onward]
        exact fulfilsBehind same found.2 found.1
termination_by x.length

theorem fulfilsEnded (x : List Char) (goals : List Goal) : fulfils goals (x ++ ['\n']) = fulfils goals x := by
  have ends : skip (x ++ ['\n']) = if skip x = [] then [] else skip x ++ ['\n'] := skipEnds x [] false
  by_cases blank : skip x = []
  · refine fulfilsOfSkip ?_ goals
    rw [ends,if_pos blank,blank]
  · have shown := advanceEnds goals blank []
    cases taken : advance (skip x) goals with
    | none =>
        rw [fulfilsStuck blank taken]
        exact fulfilsStuck (by simp [ends,blank]) (by rw [ends,if_neg blank,shown,taken]; rfl)
    | some found =>
        have shorter : found.2.length < x.length := Nat.lt_of_lt_of_le (advanceShortens taken) (skipLength x)
        have onward : advance (skip (x ++ ['\n'])) goals = some (found.1,found.2 ++ ['\n']) := by
          rw [ends,if_neg blank,shown,taken]
          rfl
        rw [fulfilsOfAdvance onward,fulfilsOfAdvance taken]
        exact fulfilsEnded found.2 found.1
termination_by x.length

structure Cuts (c : Char) : Prop where
  digit : Text.hexValue c = none
  slash : c ≠ '\\'
  letter : (c == 'u' || c == 'U') = false

theorem cutsBreak : Cuts '\n' := ⟨by decide,by decide,by decide⟩

theorem cutsSpace : Cuts ' ' := ⟨by decide,by decide,by decide⟩

theorem takeRunCut {test : Char → Bool} {stop : Char} (other : test stop = false) (n : Nat) (x s : List Char) :
    ((x ++ stop :: s).take n).takeWhile test = (x.take n).takeWhile test := by
  induction x generalizing n with
  | nil => cases n <;> simp [other]
  | cons c rest ih =>
      cases n with
      | zero => rfl
      | succ n => simp only [List.cons_append,List.take_succ_cons,List.takeWhile_cons,ih]

theorem escapeWithin {c : Char} {x digits : List Char} (found : escapeDigits (c :: x) = some digits) :
    digits.length + 1 ≤ x.length := by
  unfold escapeDigits at found
  split at found
  · next d rest same =>
    cases same
    have run : ((rest.take 8).takeWhile fun e => (Text.hexValue e).isSome).length ≤ rest.length :=
      Nat.le_trans (List.takeWhile_prefix _).length_le (List.length_take_le' 8 rest)
    simp only at found
    split at found
    · split at found
      · cases found
        exact Nat.succ_le_succ run
      · split at found
        · cases found
          exact Nat.succ_le_succ (Nat.le_trans (List.length_take_le' 4 _) run)
        · contradiction
    · contradiction
  · contradiction

section

variable {stop : Char} (cuts : Cuts stop)

include cuts

theorem escapeEnds (c : Char) (x s : List Char) : escapeDigits (c :: (x ++ stop :: s)) = escapeDigits (c :: x) := by
  by_cases escaped : c = '\\'
  · subst escaped
    cases x with
    | nil => simp [escapeDigits,cuts.letter]
    | cons d rest =>
        have run := @takeRunCut (fun d => (Text.hexValue d).isSome) stop (by simp [cuts.digit]) 8 rest s
        simp only [escapeDigits,List.cons_append,run]
  · rw [escapeDigits,escapeDigits]
    all_goals simp [escaped]

theorem unescapeFromEnds (x s : List Char) (skip : Nat) (within : skip ≤ x.length) :
    unescapeFrom skip (x ++ stop :: s) = (do
      let before ← unescapeFrom skip x
      let after ← unescape s
      .ok (before ++ stop :: after)) := by
  induction x generalizing skip with
  | nil =>
      cases Nat.le_zero.mp within
      have plain : escapeDigits (stop :: s) = none := by
        rw [escapeDigits]
        simp [cuts.slash]
      simp only [List.nil_append,unescapeFrom,plain,unescape]
      rfl
  | cons c rest ih =>
      cases skip with
      | succ skip => exact ih skip (Nat.le_of_succ_le_succ within)
      | zero =>
          simp only [List.cons_append,unescapeFrom,escapeEnds cuts]
          cases found : escapeDigits (c :: rest) with
          | none =>
              simp only [ih 0 (Nat.zero_le _),bind_assoc]
              rfl
          | some digits =>
              simp only [ih _ (escapeWithin found),bind_assoc]
              rfl

theorem unescapeEnds (x s : List Char) : unescape (x ++ stop :: s) = (do
    let before ← unescape x
    let after ← unescape s
    .ok (before ++ stop :: after)) := unescapeFromEnds cuts x s 0 (Nat.zero_le _)

end

end PathQuery.Grammar
