import PathQuery.Proofs.Grammar.Ending
import PathQuery.Proofs.Grammar.Select

/-! The limit of the outermost query. Nothing else reads a limit at the end of a text than the goal at the bottom of
the stack, as each inner query is closed by a brace. -/
namespace PathQuery.Grammar

def limitGoals : List Goal := [.one (.keyword .LIMIT),.one .digits]

def limitedGoals : List Goal := .prologue :: .one (.keyword .SELECT) :: selectGoals.dropLast ++ limitGoals

def IsLimited (s : List Char) : Prop := ∃ t, unescape s = .ok t ∧ fulfils limitedGoals t = true

instance (s : List Char) : Decidable (IsLimited s) :=
  match expanded : unescape s with
  | .ok t => decidable_of_iff (fulfils limitedGoals t = true)
      ⟨fun read => ⟨t,expanded,read⟩,fun ⟨_,same,read⟩ => by cases expanded.symm.trans same; exact read⟩
  | .error _ => .isFalse fun ⟨_,same,_⟩ => nomatch expanded.symm.trans same

def Lexeme.shuns : Lexeme → Bool
  | keyword .LIMIT => false
  | mark c => c != 'L'
  | _ => true

def Goal.shuns (goal : Goal) : Bool := goal.choices.all fun choice => choice.1.shuns

def shut : List Goal → Bool
  | [] => true
  | goal :: goals => (goal.shuns || goal == .limit && !goals.all Goal.isOptional) && shut goals

theorem shutAppend {first second : List Goal} (a : shut first = true) (b : shut second = true) :
    shut (first ++ second) = true := by
  induction first with
  | nil => exact b
  | cons goal goals ih =>
      simp only [shut,Bool.and_eq_true,Bool.or_eq_true,List.cons_append,Bool.not_eq_true',List.all_append,
        Bool.and_eq_false_iff] at a ⊢
      exact ⟨a.1.imp_right fun must => ⟨must.1,.inl must.2⟩,ih a.2⟩

theorem shutChoice {goal : Goal} {choice : Choice} (member : choice ∈ goal.choices) : shut choice.2 = true := by
  have all : (goal.choices.all fun choice => shut choice.2) = true := by
    cases goal <;> rfl
  exact List.all_eq_true.mp all choice member

theorem shutTaken {goal : Goal} {s rest : List Char} {more : List Goal} (taken : goal.take s = some (more,rest)) :
    shut more = true := by
  obtain ⟨⟨lexeme,goals⟩,member,read⟩ := List.exists_of_findSome?_eq_some taken
  obtain ⟨_,_,same⟩ := Option.map_eq_some_iff.mp read
  cases same
  exact shutChoice member

theorem shutQuery : shut (.prologue :: .one (.keyword .SELECT) :: selectGoals.dropLast) = true := by decide

def limitClause (n : Nat) : List Char := "LIMIT ".toList ++ Nat.toDigits 10 n

theorem clauseShunned {lexeme : Lexeme} (shuns : lexeme.shuns = true) (n : Nat) :
    lexeme.read (limitClause n) = none := by
  have run : readLabel (limitClause n) = none := by
    have rest : afterRun isNameChar ("IMIT".toList ++ ' ' :: Nat.toDigits 10 n) = ' ' :: Nat.toDigits 10 n :=
      afterRunOf (by decide) (by decide) (fun c head => by cases head; decide)
    simpa [limitClause,readLabel,readMark,show isLetter 'L' = true by decide] using congrArg (readMark ':') rest
  have iri : readIri (limitClause n) = none := rfl
  have name : readName (limitClause n) = none := by rw [readName,iri,run]; rfl
  cases lexeme with
  | keyword word => cases word <;> first | rfl | contradiction
  | mark c =>
      have other : 'L' ≠ c := fun same => by simp [Lexeme.shuns,← same] at shuns
      simp [Lexeme.read,limitClause,readMark,other]
  | label => exact run
  | iri => exact iri
  | name => exact name
  | var => rfl
  | term => rw [Lexeme.read,readTerm,name]; rfl
  | step => rw [Lexeme.read,readStep,name]; rfl
  | pathEnd => rfl
  | digits => rfl
  | number => rfl

theorem goalShunned {goal : Goal} (shuns : goal.shuns = true) (n : Nat) : goal.take (limitClause n) = none := by
  refine List.findSome?_eq_none_iff.mpr fun choice member => ?_
  simp [clauseShunned (List.all_eq_true.mp shuns choice member)]

theorem clauseTaken (n : Nat) : readKeyword .LIMIT (limitClause n) = some (' ' :: Nat.toDigits 10 n) := rfl

theorem digitsClosed (n : Nat) (goals : List Goal) :
    fulfils (.one .digits :: goals) (' ' :: Nat.toDigits 10 n) = goals.all Goal.isOptional := by
  have keyword : fulfils (.limit :: goals) (limitClause n) = fulfils (.one .digits :: goals) (' ' :: Nat.toDigits 10 n) :=
    fulfilsOfAdvance rfl
  have closed := fulfilsLimit n goals (s := []) nofun
  rw [List.append_nil,fulfilsNil] at closed
  exact keyword.symm.trans closed

variable {bottom : List Goal}

def IsBottom (bottom : List Goal) : Prop := bottom = [.limit] ∨ bottom = limitGoals

theorem bottomTakes (low : IsBottom bottom) (s : List Char) :
    advance s bottom = (readKeyword .LIMIT s).map fun rest => ([.one .digits],rest) := by
  rcases low with rfl | rfl
  · cases read : readKeyword .LIMIT s <;>
      simp [advance,Goal.take,Goal.choices,Goal.isOptional,Lexeme.read,read]
  · cases read : readKeyword .LIMIT s <;>
      simp [limitGoals,advance,Goal.take,Goal.choices,Goal.isOptional,Lexeme.read,read]

theorem clauseFulfils (low : IsBottom bottom) {goals : List Goal} (closed : shut goals = true) (n : Nat) :
    fulfils (goals ++ bottom) (limitClause n) = goals.all Goal.isOptional := by
  have visible : skip (limitClause n) = limitClause n := rfl
  induction goals with
  | nil =>
      have taken : advance (skip (limitClause n)) bottom = some ([.one .digits],' ' :: Nat.toDigits 10 n) := by
        rw [visible,bottomTakes low,clauseTaken]
        rfl
      rw [List.nil_append,fulfilsOfAdvance taken,digitsClosed]
  | cons goal goals ih =>
      simp only [shut,Bool.and_eq_true,Bool.or_eq_true,Bool.not_eq_true',beq_iff_eq] at closed
      obtain ⟨shuns | ⟨rfl,must⟩,rest⟩ := closed
      · have left := goalShunned shuns n
        cases may : goal.isOptional with
        | true => rw [List.cons_append,fulfilsLeft visible left may (by simp [limitClause]),ih rest,List.all_cons,may,
            Bool.true_and]
        | false =>
            have stuck : advance (skip (limitClause n)) (goal :: goals ++ bottom) = none := by
              rw [visible,List.cons_append,advance,left]
              simp [may]
            rw [fulfilsStuck (visible ▸ List.cons_ne_nil _ _) stuck,List.all_cons,may,Bool.false_and]
      · have taken : advance (skip (limitClause n)) (.limit :: goals ++ bottom) =
            some (.one .digits :: (goals ++ bottom),' ' :: Nat.toDigits 10 n) := rfl
        rw [fulfilsOfAdvance taken,digitsClosed,List.all_append,must,List.all_cons,must]
        rfl

theorem advanceAbove {goals : List Goal} (closed : shut goals = true) (s : List Char) :
    (∃ next rest, shut next = true ∧ ∀ bottom, IsBottom bottom →
      advance s (goals ++ bottom) = some (next ++ bottom,rest)) ∨
    (∃ rest, ∀ bottom, IsBottom bottom → advance s (goals ++ bottom) = some ([.one .digits],rest)) ∨
    ∀ bottom, IsBottom bottom → advance s (goals ++ bottom) = none := by
  induction goals with
  | nil =>
      cases read : readKeyword .LIMIT s with
      | some rest => exact .inr (.inl ⟨rest,fun bottom low => by rw [List.nil_append,bottomTakes low,read]; rfl⟩)
      | none => exact .inr (.inr fun bottom low => by rw [List.nil_append,bottomTakes low,read]; rfl)
  | cons goal goals ih =>
      have rest : shut goals = true := (Bool.and_eq_true_iff.mp closed).2
      cases took : goal.take s with
      | some taken =>
          refine .inl ⟨taken.1 ++ goals,taken.2,shutAppend (shutTaken took) rest,fun bottom _ => ?_⟩
          rw [List.cons_append,advanceTaken took,List.append_assoc]
      | none =>
          cases may : goal.isOptional with
          | true => simpa only [List.cons_append,advanceLeft took may] using ih rest
          | false => exact .inr (.inr fun bottom _ => by rw [List.cons_append,advance,took]; simp [may])

theorem digitsLast (x : List Char) (n : Nat) : fulfils [.one .digits] (x ++ '\n' :: limitClause n) = false := by
  have ends : ∀ x, skip (x ++ '\n' :: limitClause n) =
      if skip x = [] then limitClause n else skip x ++ '\n' :: limitClause n := fun x => skipEnds x (limitClause n) false
  have visible : ∀ x, skip (x ++ '\n' :: limitClause n) ≠ [] := by
    intro x
    rw [ends]
    split
    · exact List.cons_ne_nil _ _
    · simp
  by_cases blank : skip x = []
  · refine fulfilsStuck (visible x) ?_
    rw [ends,if_pos blank]
    rfl
  · have step := advanceEnds [.one .digits] blank (limitClause n)
    cases read : readDigits (skip x) with
    | none =>
        refine fulfilsStuck (visible x) ?_
        rw [ends,if_neg blank,step]
        simp [advance,Goal.take,Goal.choices,Lexeme.read,read,Goal.isOptional]
    | some rest =>
        have onward : advance (skip (x ++ '\n' :: limitClause n)) [.one .digits] =
            some ([],rest ++ '\n' :: limitClause n) := by
          rw [ends,if_neg blank,step]
          simp [advance,Goal.take,Goal.choices,Lexeme.read,read]
        rw [fulfilsOfAdvance onward]
        exact fulfilsStuck (visible rest) rfl

theorem limitAppended {goals : List Goal} (closed : shut goals = true) (x : List Char) (n : Nat) :
    ∀ bottom, IsBottom bottom → fulfils (goals ++ bottom) (x ++ '\n' :: limitClause n) =
      (fulfils (goals ++ [.limit]) x && !fulfils (goals ++ limitGoals) x) := by
  have ends : skip (x ++ '\n' :: limitClause n) =
      if skip x = [] then limitClause n else skip x ++ '\n' :: limitClause n := skipEnds x (limitClause n) false
  by_cases blank : skip x = []
  · intro bottom low
    have here : ∀ goals, fulfils goals x = goals.all Goal.isOptional := fun goals =>
      (fulfilsOfSkip (by rw [blank]; rfl) goals).trans (fulfilsNil goals)
    have same : skip (x ++ '\n' :: limitClause n) = skip (limitClause n) := by rw [ends,if_pos blank]; rfl
    rw [fulfilsOfSkip same,clauseFulfils low closed,here,here,List.all_append,List.all_append]
    simp [Goal.isOptional,limitGoals]
  · have step : ∀ goals, advance (skip (x ++ '\n' :: limitClause n)) goals =
        (advance (skip x) goals).map fun taken => (taken.1,taken.2 ++ '\n' :: limitClause n) := by
      intro goals
      rw [ends,if_neg blank]
      exact advanceEnds goals blank (limitClause n)
    have visible : skip (x ++ '\n' :: limitClause n) ≠ [] := by simp [ends,blank]
    rcases advanceAbove closed (skip x) with ⟨next,rest,above,onward⟩ | ⟨rest,onward⟩ | stuck
    · intro bottom low
      have shorter : rest.length < x.length :=
        Nat.lt_of_lt_of_le (advanceShortens (onward bottom low)) (skipLength x)
      rw [fulfilsOfAdvance (show _ = some (next ++ bottom,rest ++ '\n' :: limitClause n) by
          rw [step,onward bottom low]; rfl),
        fulfilsOfAdvance (onward _ (.inl rfl)),fulfilsOfAdvance (onward _ (.inr rfl))]
      exact limitAppended above rest n bottom low
    · intro bottom low
      rw [fulfilsOfAdvance (show _ = some ([.one .digits],rest ++ '\n' :: limitClause n) by
          rw [step,onward bottom low]; rfl),
        fulfilsOfAdvance (onward _ (.inl rfl)),fulfilsOfAdvance (onward _ (.inr rfl)),digitsLast,Bool.and_not_self]
    · intro bottom low
      rw [fulfilsStuck visible (by rw [step,stuck bottom low]; rfl),fulfilsStuck blank (stuck _ (.inl rfl)),
        Bool.false_and]
termination_by x.length

theorem limitedFulfils {goals : List Goal} (closed : shut goals = true) (x : List Char)
    (read : fulfils (goals ++ limitGoals) x = true) : fulfils (goals ++ [.limit]) x = true := by
  by_cases blank : skip x = []
  · rw [fulfilsOfSkip (t := []) (by rw [blank]; rfl),fulfilsNil,List.all_append] at read
    simp [limitGoals,Goal.isOptional] at read
  · rcases advanceAbove closed (skip x) with ⟨next,rest,above,onward⟩ | ⟨rest,onward⟩ | stuck
    · have shorter : rest.length < x.length :=
        Nat.lt_of_lt_of_le (advanceShortens (onward [.limit] (.inl rfl))) (skipLength x)
      rw [fulfilsOfAdvance (onward _ (.inr rfl))] at read
      rw [fulfilsOfAdvance (onward _ (.inl rfl))]
      exact limitedFulfils above rest read
    · rw [fulfilsOfAdvance (onward _ (.inr rfl))] at read
      rw [fulfilsOfAdvance (onward _ (.inl rfl))]
      exact read
    · rw [fulfilsStuck blank (stuck _ (.inr rfl))] at read
      contradiction
termination_by x.length

theorem validateIff {s : List Char} : validate s = .ok () ↔ ∃ t, unescape s = .ok t ∧ fulfils queryGoals t = true := by
  unfold validate checked
  cases unescape s with
  | error fault => exact ⟨nofun,fun ⟨_,same,_⟩ => nomatch same⟩
  | ok t =>
      show (if isQuery t then Except.ok () else Except.error Fault.invalidQuery) = .ok () ↔ _
      cases read : isQuery t with
      | true => exact ⟨fun _ => ⟨t,rfl,read⟩,fun _ => rfl⟩
      | false =>
          refine ⟨nofun,fun ⟨other,same,fulfilled⟩ => ?_⟩
          cases same
          exact absurd fulfilled (by rw [← isQuery,read]; simp)

theorem limitedAccepted {s : List Char} (limited : IsLimited s) : validate s = .ok () := by
  obtain ⟨t,expanded,read⟩ := limited
  exact validateIff.mpr ⟨t,expanded,limitedFulfils shutQuery t read⟩

theorem clausePlain (n : Nat) : '\\' ∉ limitClause n := by
  intro member
  rcases List.mem_append.mp member with word | digits
  · exact absurd word (by decide)
  · exact absurd (Nat.isDigit_of_mem_toDigits (by decide) (by decide) digits) (by decide)

theorem clauseAppended (s : List Char) (n : Nat) :
    (validate (s ++ '\n' :: limitClause n) = .ok () ↔ validate s = .ok () ∧ ¬ IsLimited s) ∧
      (IsLimited (s ++ '\n' :: limitClause n) ↔ validate s = .ok () ∧ ¬ IsLimited s) := by
  have expanded : unescape (s ++ '\n' :: limitClause n) = (unescape s).map (· ++ '\n' :: limitClause n) := by
    rw [unescapeEnds cutsBreak,unescapeOfPlain (clausePlain n)]
    cases unescape s <;> rfl
  simp only [validateIff,IsLimited,expanded]
  cases unescape s with
  | error fault => simp [Except.map]
  | ok t =>
      have appended := limitAppended shutQuery t n
      have optional : fulfils queryGoals (t ++ '\n' :: limitClause n) =
          (fulfils queryGoals t && !fulfils limitedGoals t) := appended [.limit] (.inl rfl)
      have needed : fulfils limitedGoals (t ++ '\n' :: limitClause n) =
          (fulfils queryGoals t && !fulfils limitedGoals t) := appended limitGoals (.inr rfl)
      simp [Except.map,optional,needed]

end PathQuery.Grammar
