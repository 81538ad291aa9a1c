import Mathlib.Data.List.Induction
import Mathlib.Data.List.TakeWhile
import PathQuery.Proofs.Grammar.Limit

/-! A blank at the end of a text. A name may go on with it, as one of the blanks is a letter to the grammar; a number may
not, so a text that ends with a limit is bounded without it too. -/
namespace PathQuery.Grammar

variable {c : Char}

def Nears (c : Char) (read : Reader) : Prop :=
  ∀ x, x ≠ [] → read (x ++ [c]) = (read x).map (· ++ [c]) ∨ read (x ++ [c]) = some []

theorem nearsEnds {read : Reader} (ends : Ends [c] read) : Nears c read := fun x _ => .inl (ends x)

theorem nearsOr {first second : Reader} (a : Nears c first) (b : Nears c second) :
    Nears c fun s => (first s).or (second s) := by
  intro x filled
  rcases a x filled with same | all
  · simp only [same]
    cases first x with
    | none => exact b x filled
    | some rest => exact .inl rfl
  · simp only [all]
    exact .inr rfl

theorem nearsMap {read : Reader} (a : Nears c read) {after : List Char → List Char}
    (b : ∀ x, after (x ++ [c]) = after x ++ [c] ∨ after (x ++ [c]) = []) (none : after [] = []) :
    Nears c fun s => (read s).map after := by
  intro x filled
  rcases a x filled with same | all
  · simp only [same]
    cases read x with
    | none => exact .inl rfl
    | some rest => simpa using b rest
  · simp [all,none]

theorem dropWhileNears (test : Char → Bool) (x : List Char) :
    (x ++ [c]).dropWhile test = x.dropWhile test ++ [c] ∨ (x ++ [c]).dropWhile test = [] := by
  induction x with
  | nil => by_cases goes : test c <;> simp [goes]
  | cons d rest ih =>
      simp only [List.cons_append,List.dropWhile_cons]
      split
      · exact ih
      · exact .inl rfl

theorem runNears {isInner : Char → Bool} (solid : c ≠ '.') (x : List Char) :
    afterRun isInner (x ++ [c]) = afterRun isInner x ++ [c] ∨
      afterRun isInner (x ++ [c]) = [] ∧ ∀ d ∈ x, (isInner d || d == '.') = true := by
  by_cases own : ∀ d ∈ x, (isInner d || d == '.') = true
  · cases last : isInner c || c == '.' with
    | true =>
        have inside : ∀ d ∈ x ++ [c], (isInner d || d == '.') = true := by
          intro d member
          rcases List.mem_append.mp member with old | new
          · exact own d old
          · exact List.mem_singleton.mp new ▸ last
        have ending : (x ++ [c]).getLast? ≠ some '.' := by simpa using solid
        exact .inr ⟨by simpa using afterRunOf inside ending (s := []) nofun,own⟩
    | false => exact .inl (runSpared (takeWhileBefore (stopsCons last []) x))
  · refine .inl (runSpared ?_)
    have shorter : (x.takeWhile fun d => isInner d || d == '.').length ≠ x.length := fun whole =>
      own (List.takeWhile_eq_self_iff.mp ((List.takeWhile_prefix _).eq_of_length whole))
    rw [List.takeWhile_append,if_neg shorter]

theorem runClosed {s : List Char} (inside : ∀ d ∈ s, (isNameChar d || d == '.') = true) :
    readMark ':' (afterRun isNameChar s) = none := by
  cases left : afterRun isNameChar s with
  | nil => rfl
  | cons d rest =>
      have member : d ∈ s := List.mem_of_mem_drop (left ▸ List.mem_cons_self : d ∈ afterRun isNameChar s)
      have other : d ≠ ':' := by
        rintro rfl
        exact absurd (inside _ member) (by decide)
      simp [readMark,other]

theorem nearsVar (c : Char) : Nears c readVar := by
  intro x filled
  match x with
  | [mark] =>
      simp only [readVar,List.cons_append,List.nil_append]
      split
      · exact .inr rfl
      · exact .inl rfl
  | mark :: d :: rest =>
      simp only [readVar,List.cons_append]
      split
      · exact (dropWhileNears isVarChar rest).imp (congrArg some) (congrArg some)
      · exact .inl rfl

section

variable (blank : Text.isBlank c = true)

include blank

theorem blankParted : Parted [c] := stopsCons (by simp [blank]) []

theorem blankOther {d : Char} (visible : Text.isBlank d = false) : c ≠ d := by
  rintro rfl
  exact absurd blank (by simp [visible])

theorem blankIri : Ends [c] readIri := by
  refine endsIri (blankParted blank) ?_
  have other := blankOther blank (d := '>') (by decide)
  by_cases goes : isIriChar c <;> simp [goes,readMark,other]

theorem blankLabel : Ends [c] readLabel := by
  intro x
  have colon : Ends [c] (readMark ':') := endsDot (blankParted blank) (by decide)
  cases x with
  | nil =>
      have other := blankOther blank (d := ':') (by decide)
      simp only [readLabel,List.nil_append]
      split <;> simp [readMark,other,afterRun]
  | cons d rest =>
      simp only [readLabel,List.cons_append]
      split
      · rcases runNears (blankOther blank (by decide)) rest with same | ⟨all,inside⟩
        · rw [same,colon]
        · rw [all,runClosed inside]
          rfl
      · exact colon (d :: rest)

theorem localNears (x : List Char) : afterLocal (x ++ [c]) = afterLocal x ++ [c] ∨ afterLocal (x ++ [c]) = [] := by
  cases x with
  | nil =>
      simp only [afterLocal,List.nil_append]
      split
      · exact .inr rfl
      · exact .inl rfl
  | cons d rest =>
      simp only [afterLocal,List.cons_append]
      split
      · exact (runNears (blankOther blank (by decide)) rest).imp_right And.left
      · exact .inl rfl

theorem nearsName : Nears c readName :=
  nearsOr (nearsEnds (blankIri blank)) (nearsMap (nearsEnds (blankLabel blank)) (localNears blank) rfl)

theorem Lexeme.readNears (lexeme : Lexeme) : Nears c lexeme.read := by
  have parted := blankParted blank
  have repetition : Spares [c] afterRepetition := sparesRepetition (partedStops parted (by decide))
  cases lexeme with
  | keyword word => exact nearsEnds (endsKeyword parted word)
  | mark d =>
      intro x filled
      cases x with
      | nil => contradiction
      | cons e rest =>
          simp only [Lexeme.read,readMark,List.cons_append]
          split
          · exact .inl rfl
          · exact .inl rfl
  | label => exact nearsEnds (blankLabel blank)
  | iri => exact nearsEnds (blankIri blank)
  | name => exact nearsName blank
  | var => exact nearsVar c
  | term => exact nearsOr (nearsVar c) (nearsName blank)
  | step =>
      exact nearsMap (nearsOr (nearsName blank) (nearsEnds (endsDot parted (by decide)))) (fun x => .inl (repetition x)) rfl
  | pathEnd => exact nearsEnds (endsPathEnd parted)
  | digits => exact nearsEnds (endsWholeNumber parted)
  | number => exact nearsEnds (endsNumber parted)

theorem takeNears (goal : Goal) {x : List Char} (filled : x ≠ []) :
    goal.take (x ++ [c]) = (goal.take x).map (fun taken => (taken.1,taken.2 ++ [c])) ∨
      ∃ more, goal.take (x ++ [c]) = some (more,[]) := by
  unfold Goal.take
  induction goal.choices with
  | nil => exact .inl rfl
  | cons choice rest ih =>
      obtain ⟨lexeme,more⟩ := choice
      simp only [List.findSome?_cons]
      rcases lexeme.readNears blank x filled with same | all
      · simp only [same]
        cases lexeme.read x with
        | none => exact ih
        | some left => exact .inl rfl
      · exact .inr ⟨more,by simp [all]⟩

theorem advanceNears (goals : List Goal) {x : List Char} (filled : x ≠ []) :
    advance (x ++ [c]) goals = (advance x goals).map (fun taken => (taken.1,taken.2 ++ [c])) ∨
      ∃ next, advance (x ++ [c]) goals = some (next,[]) := by
  induction goals with
  | nil => exact .inl rfl
  | cons goal rest ih =>
      rw [advance,advance]
      rcases takeNears blank goal filled with same | ⟨more,all⟩
      · simp only [same]
        cases goal.take x with
        | some taken => exact .inl rfl
        | none =>
            simp only [Option.map_none]
            split
            · exact ih
            · exact .inl rfl
      · exact .inr ⟨more ++ rest,by simp only [all]⟩

end

theorem lastKept {goals next : List Goal} {s rest : List Char} (last : goals.getLast? = some (.one .digits))
    (onward : advance s goals = some (next,rest)) :
    next.getLast? = some (.one .digits) ∨ next = [] ∧ readDigits s = some rest := by
  induction goals with
  | nil => simp at last
  | cons goal goals ih =>
      rw [advance] at onward
      cases goals with
      | nil =>
          obtain rfl : goal = .one .digits := by simpa using last
          cases read : readDigits s with
          | none => simp [Goal.take,Goal.choices,Lexeme.read,read,Goal.isOptional] at onward
          | some left =>
              simp only [Goal.take,Goal.choices,Lexeme.read,read,List.findSome?_cons,Option.map_some,List.append_nil,
                Option.some.injEq,Prod.mk.injEq] at onward
              exact .inr ⟨onward.1.symm,congrArg some onward.2⟩
      | cons second others =>
          rw [List.getLast?_cons_cons] at last
          split at onward
          · next more left _ =>
            cases onward
            rw [List.getLast?_append,last]
            exact .inl rfl
          · split at onward
            · exact ih last onward
            · contradiction

theorem lastMissing {goals : List Goal} (last : goals.getLast? = some (.one .digits)) :
    goals.all Goal.isOptional = false := by
  obtain ⟨front,rfl⟩ := List.getLast?_eq_some_iff.mp last
  simp [Goal.isOptional]

theorem skipCut (c : Char) (x : List Char) (inComment : Bool) :
    skipFrom inComment (x ++ [c]) = skipFrom inComment x ++ [c] ∧ skipFrom inComment x ≠ [] ∨
      skipFrom inComment x = [] ∧ (skipFrom inComment (x ++ [c]) = [] ∨ skipFrom inComment (x ++ [c]) = [c]) := by
  induction x generalizing inComment with
  | nil =>
      refine .inr ⟨rfl,?_⟩
      simp only [List.nil_append,skipFrom]
      split
      · exact .inl rfl
      · split
        · exact .inl rfl
        · split
          · exact .inl rfl
          · exact .inr rfl
  | cons d rest ih =>
      simp only [List.cons_append,skipFrom]
      split
      · exact ih _
      · split
        · exact ih _
        · split
          · exact ih _
          · exact .inl ⟨rfl,List.cons_ne_nil _ _⟩

theorem skippedCut {x : List Char} (skipped : skip (x ++ [c]) = []) : skip x = [] := by
  rcases skipCut c x false with ⟨kept,_⟩ | ⟨blank,_⟩
  · simp [show skip (x ++ [c]) = _ from kept] at skipped
  · exact blank

theorem fulfilsStep {goals : List Goal} {s : List Char} (read : fulfils goals s = true) :
    skip s = [] ∧ goals.all Goal.isOptional = true ∨
      ∃ next rest, advance (skip s) goals = some (next,rest) ∧ fulfils next rest = true := by
  by_cases empty : skip s = []
  · refine .inl ⟨empty,?_⟩
    rwa [fulfilsOfSkip (t := []) (by rw [empty]; rfl),fulfilsNil] at read
  · cases step : advance (skip s) goals with
    | none => exact absurd read (by simp [fulfilsStuck empty step])
    | some taken => exact .inr ⟨taken.1,taken.2,rfl,fulfilsOfAdvance step ▸ read⟩

theorem fulfilsNone {s : List Char} : fulfils [] s = true ↔ skip s = [] := by
  constructor
  · intro read
    rcases fulfilsStep read with ⟨empty,_⟩ | ⟨_,_,step,_⟩
    · exact empty
    · nomatch step
  · intro empty
    rw [fulfilsOfSkip (t := []) (by rw [empty]; rfl),fulfilsNil]
    rfl

theorem fulfilsCut (blank : Text.isBlank c = true) {goals : List Goal} (last : goals.getLast? = some (.one .digits))
    (x : List Char) (read : fulfils goals (x ++ [c]) = true) : fulfils goals x = true := by
  have missing := lastMissing last
  -- The number itself ends before the blank, and nothing else may come last.
  have ended : ∀ {y next}, advance (y ++ [c]) goals = some (next,[]) → fulfils next [] = true → False := by
    intro y next step done
    rw [fulfilsNil] at done
    rcases lastKept last step with kept | ⟨-,number⟩
    · exact absurd done (by simp [lastMissing kept])
    · rw [endsWholeNumber (blankParted blank)] at number
      obtain ⟨rest,_,same⟩ := Option.map_eq_some_iff.mp number
      exact absurd same (by simp)
  rcases fulfilsStep read with ⟨_,all⟩ | ⟨next,rest,step,onward⟩
  · exact absurd all (by simp [missing])
  have cut : skip (x ++ [c]) = skip x ++ [c] ∧ skip x ≠ [] ∨
      skip x = [] ∧ (skip (x ++ [c]) = [] ∨ skip (x ++ [c]) = [c]) := skipCut c x false
  rcases cut with ⟨kept,filled⟩ | ⟨_,none | single⟩
  · rw [kept] at step
    rcases advanceNears blank goals filled with same | ⟨other,all⟩
    · rw [step] at same
      obtain ⟨taken,before,cut⟩ := Option.map_eq_some_iff.mp same.symm
      cases cut
      rw [fulfilsOfAdvance before]
      rcases lastKept last before with kept | ⟨nothing,-⟩
      · have shorter : taken.2.length < x.length := Nat.lt_of_lt_of_le (advanceShortens before) (skipLength x)
        exact fulfilsCut blank kept taken.2 onward
      · rw [nothing] at onward ⊢
        exact fulfilsNone.mpr (skippedCut (fulfilsNone.mp onward))
    · cases all.symm.trans step
      exact (ended all onward).elim
  · rw [none,advanceNil] at step
    nomatch step
  · rw [single] at step
    cases List.length_eq_zero_iff.mp (Nat.lt_one_iff.mp (advanceShortens step))
    exact (ended (y := []) step onward).elim
termination_by x.length

theorem cutsBlank (blank : Text.isBlank c = true) : Cuts c := by
  have listed := blankListed blank
  have digit : ∀ d ∈ blanks, Text.hexValue d = none := by decide +kernel
  have slash : ∀ d ∈ blanks, d ≠ '\\' := by decide
  have letter : ∀ d ∈ blanks, (d == 'u' || d == 'U') = false := by decide
  exact ⟨digit c listed,slash c listed,letter c listed⟩

theorem limitedCut (blank : Text.isBlank c = true) {s : List Char} (limited : IsLimited (s ++ [c])) : IsLimited s := by
  obtain ⟨t,expanded,read⟩ := limited
  rw [unescapeEnds (cutsBlank blank) s []] at expanded
  cases before : unescape s with
  | error fault =>
      rw [before] at expanded
      nomatch expanded
  | ok front =>
      rw [before] at expanded
      cases expanded
      exact ⟨front,before,fulfilsCut blank (by rfl) front read⟩

theorem trimEndSplit (s : List Char) : ∃ gap, (∀ c ∈ gap, Text.isBlank c = true) ∧ s = Text.trimEnd s ++ gap := by
  induction s with
  | nil => exact ⟨[],nofun,rfl⟩
  | cons c rest ih =>
      obtain ⟨gap,blanks,split⟩ := ih
      cases kept : Text.trimEnd rest with
      | nil =>
          rw [kept] at split
          cases blank : Text.isBlank c with
          | true =>
              refine ⟨c :: rest,List.forall_mem_cons.mpr ⟨blank,?_⟩,by simp [Text.trimEnd,kept,blank]⟩
              rwa [split]
          | false => exact ⟨rest,split ▸ blanks,by simp [Text.trimEnd,kept,blank]⟩
      | cons d more =>
          rw [kept] at split
          exact ⟨gap,blanks,by simpa [Text.trimEnd,kept] using split⟩

end PathQuery.Grammar
