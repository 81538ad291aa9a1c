import PathQuery.Proofs.Attempts
import PathQuery.Proofs.Grammar.Ending
import PathQuery.Query.Reading
import PathQuery.Text.Line

/-! Lines of a query that say nothing: blank ones and comments. To leave them out changes neither whether the
text is a query nor the lines that say something. -/
namespace PathQuery
open Grammar Text

/-- The lines of a text that are neither blank nor just a comment. -/
def codeOf (s : List Char) : List (List Char) := (s.splitOn '\n').filter fun line => !(skip line).isEmpty

structure IsIdle (line : List Char) : Prop where
  whole : '\n' ∉ line
  skipped : skip line = []
  read : ∃ text, unescape line = .ok text ∧ skip text = []

inductive Quieter : List (List Char) → List (List Char) → Prop where
  | nil : Quieter [] []
  | keep (line : List Char) {lines fewer : List (List Char)} (rest : Quieter lines fewer) :
      Quieter (line :: lines) (line :: fewer)
  | drop {line : List Char} {lines fewer : List (List Char)} (idle : IsIdle line)
      (rest : Quieter lines fewer) : Quieter (line :: lines) fewer

theorem quieterSame (lines : List (List Char)) : Quieter lines lines := by
  induction lines with
  | nil => exact .nil
  | cons line rest ih => exact .keep line ih

theorem quieterAppend {a b more fewer : List (List Char)} (first : Quieter a b) (second : Quieter more fewer) :
    Quieter (a ++ more) (b ++ fewer) := by
  induction first with
  | nil => exact second
  | keep line _ ih => exact .keep line ih
  | drop idle _ ih => exact .drop idle ih

theorem quieterFilter {α : Type} {text : α → List Char} {keep : α → Bool} {items : List α}
    (idle : ∀ a ∈ items, keep a = false → IsIdle (text a)) :
    Quieter (items.map text) ((items.filter keep).map text) := by
  induction items with
  | nil => exact .nil
  | cons a rest ih =>
      have later := ih fun b member => idle b (List.mem_cons_of_mem _ member)
      cases shown : keep a with
      | true =>
          rw [List.filter_cons_of_pos shown]
          exact .keep _ later
      | false =>
          rw [List.filter_cons_of_neg (by simp [shown])]
          exact .drop (idle a (by simp) shown) later

theorem joinCons (line : List Char) {rest : List (List Char)} (filled : rest ≠ []) :
    joinLines (line :: rest) = line ++ '\n' :: joinLines rest := by
  cases rest with
  | nil => contradiction
  | cons next more => rfl

theorem joinAppend {front back : List (List Char)} (filled : front ≠ []) (more : back ≠ []) :
    joinLines (front ++ back) = joinLines front ++ '\n' :: joinLines back := by
  induction front with
  | nil => contradiction
  | cons line rest ih =>
      cases rest with
      | nil => exact joinCons line more
      | cons next others =>
          rw [List.cons_append,joinCons line (by simp),joinCons line (by simp),ih (by simp)]
          simp

theorem idleBlank : IsIdle [] := ⟨by simp,rfl,[],rfl,rfl⟩

theorem unescapeCons {c : Char} (plain : c ≠ '\\') (s : List Char) :
    unescape (c :: s) = (unescape s).map (c :: ·) := by
  have none_ : escapeDigits (c :: s) = none := by
    rw [escapeDigits]
    simp [plain]
  simp only [unescape,unescapeFrom,none_]
  cases unescapeFrom 0 s <;> rfl

theorem idleMargin {margin line : List Char} (spaces : ∀ c ∈ margin, c = ' ') (idle : IsIdle line) :
    IsIdle (margin ++ line) := by
  induction margin with
  | nil => exact idle
  | cons c rest ih =>
      obtain ⟨whole,skipped,text,read,silent⟩ := ih fun d member => spaces d (List.mem_cons_of_mem _ member)
      rw [spaces c (by simp),List.cons_append]
      refine ⟨by simpa using whole,skipped,' ' :: text,?_,silent⟩
      rw [unescapeCons (by decide),read]
      rfl

def OneLine (s : List Char) : Prop := ∃ text, unescape s = .ok text ∧ '\n' ∉ text

instance (s : List Char) : Decidable (OneLine s) := match read : unescape s with
  | .ok text => decidable_of_iff ('\n' ∉ text) (by simp [OneLine,read])
  | .error _ => isFalse (by simp [OneLine,read])

theorem oneLineWhole {s : List Char} (line : OneLine s) : '\n' ∉ s := by
  obtain ⟨text,read,apart⟩ := line
  intro broken
  obtain ⟨front,back,rfl⟩ := List.append_of_mem broken
  rw [unescapeEnds cutsBreak] at read
  obtain ⟨before,_,read⟩ := bindOk.mp read
  obtain ⟨after,_,same⟩ := bindOk.mp read
  cases same
  exact apart (by simp)

theorem oneLinePlain {s : List Char} (line : '\n' ∉ s) (plain : '\\' ∉ s) : OneLine s :=
  ⟨s,unescapeOfPlain plain,line⟩

theorem oneLineSpaced {a b : List Char} (first : OneLine a) (second : OneLine b) : OneLine (a ++ ' ' :: b) := by
  obtain ⟨opening,read,apart⟩ := first
  obtain ⟨closing,later,more⟩ := second
  refine ⟨opening ++ ' ' :: closing,?_,by simp [apart,more]⟩
  rw [unescapeEnds cutsSpace,read,later]
  rfl

theorem skipComment {text : List Char} (line : '\n' ∉ text) : skip ('#' :: text) = [] := by
  have inside := @skipInComment text [] line fun c head => nomatch head
  rw [List.append_nil] at inside
  exact inside

theorem idleComment {text : List Char} (line : OneLine text) : IsIdle ('#' :: text) := by
  have whole := oneLineWhole line
  obtain ⟨inside,read,apart⟩ := line
  refine ⟨by simp [whole],skipComment whole,'#' :: inside,?_,skipComment apart⟩
  rw [unescapeCons (by decide),read]
  rfl

theorem codeBreak (x s : List Char) : codeOf (x ++ '\n' :: s) = codeOf x ++ codeOf s := by
  rw [codeOf,List.splitOn,List.splitOnP_append_cons x s (by simp),List.filter_append]
  rfl

theorem codeIdle {line : List Char} (idle : IsIdle line) : codeOf line = [] := by
  rw [codeOf,List.splitOn_eq_singleton idle.whole]
  simp [idle.skipped]

theorem codeQuieter {a b : List (List Char)} (quieter : Quieter a b) {back : List (List Char)}
    (more : back ≠ []) : codeOf (joinLines (a ++ back)) = codeOf (joinLines (b ++ back)) := by
  induction quieter with
  | nil => rfl
  | keep line _ ih =>
      rw [List.cons_append,List.cons_append,joinCons line (by simp [more]),joinCons line (by simp [more]),
        codeBreak,codeBreak,ih]
  | @drop line _ _ idle _ ih =>
      rw [List.cons_append,joinCons line (by simp [more]),codeBreak,codeIdle idle,ih]
      rfl

theorem codeLine {line : List Char} (whole : '\n' ∉ line) : codeOf line = [] ↔ skip line = [] := by
  rw [codeOf,List.splitOn_eq_singleton whole]
  simp

theorem codeSolid {line : List Char} (whole : '\n' ∉ line) (shown : skip line ≠ []) : codeOf line = [line] := by
  rw [codeOf,List.splitOn_eq_singleton whole]
  simp [shown]

theorem codeSkipped (s : List Char) : codeOf s = [] ↔ skip s = [] := by
  induction size : s.length using Nat.strongRecOn generalizing s with
  | ind n ih =>
    by_cases broken : '\n' ∈ s
    · obtain ⟨front,back,rfl,apart⟩ := List.eq_append_cons_of_mem broken
      have rest := ih back.length (by simp only [← size,List.length_append,List.length_cons]; omega) back rfl
      have behind : skip (front ++ '\n' :: back) =
          if skip front = [] then skip back else skip front ++ '\n' :: back := skipEnds front back false
      rw [codeBreak,List.append_eq_nil_iff,codeLine apart,rest,behind]
      split
      · next blank => simp [blank]
      · next filled => simp [filled]
    · exact codeLine broken

theorem readBreak (x s : List Char) : (unescape (x ++ '\n' :: s)).map codeOf = (do
    let before ← (unescape x).map codeOf
    let after ← (unescape s).map codeOf
    .ok (before ++ after)) := by
  rw [unescapeEnds cutsBreak]
  cases unescape x with
  | error fault => rfl
  | ok before =>
      cases unescape s with
      | error fault => rfl
      | ok after => exact congrArg Except.ok (codeBreak before after)

theorem readIdle {line : List Char} (idle : IsIdle line) : (unescape line).map codeOf = .ok [] := by
  obtain ⟨text,read,skipped⟩ := idle.read
  rw [read]
  exact congrArg Except.ok ((codeSkipped text).mpr skipped)

theorem readQuieter {a b : List (List Char)} (quieter : Quieter a b) {back : List (List Char)} (more : back ≠ []) :
    (unescape (joinLines (a ++ back))).map codeOf = (unescape (joinLines (b ++ back))).map codeOf := by
  induction quieter with
  | nil => rfl
  | keep line _ ih =>
      rw [List.cons_append,List.cons_append,joinCons line (by simp [more]),joinCons line (by simp [more]),readBreak,
        readBreak,ih]
  | @drop line _ _ idle _ ih =>
      rw [List.cons_append,joinCons line (by simp [more]),readBreak,readIdle idle,ih]
      cases (unescape _).map codeOf <;> rfl

def OpensString (line : List Char) : Prop := ∃ quote ∈ ['\'','"'], List.replicate 3 quote <:+: line

/-- A parser passes over a line of blanks and a comment, as long as no string over several lines can be open above it. -/
def SkipsIdle (accepts : List Char → Bool) : Prop :=
  ∀ above line below, (∀ code ∈ above, ¬ OpensString code) → '\n' ∉ line → skip line = [] →
    accepts (joinLines (above ++ line :: below)) = accepts (joinLines (above ++ below))

def Unquoted (s : List Char) : Prop := ∀ text, unescape s = .ok text → ∀ code ∈ codeOf text, ¬ OpensString code

theorem occursInIff (word s : List Char) : Query.occursIn word s = true ↔ word <:+: s := by
  induction s with
  | nil => simp [Query.occursIn]
  | cons c rest ih =>
      rw [Query.occursIn,Bool.or_eq_true,ih,List.infix_cons_iff,Query.startsWith,List.isPrefixOf_iff_prefix]

instance (line : List Char) : Decidable (OpensString line) :=
  decidable_of_iff (['\'','"'].any fun quote => Query.occursIn (List.replicate 3 quote) line)
    (by simp [OpensString,occursInIff])

instance (s : List Char) : Decidable (Unquoted s) := match read : unescape s with
  | .ok text => decidable_of_iff (∀ code ∈ codeOf text, ¬ OpensString code) (by simp [Unquoted,read])
  | .error _ => isTrue (by simp [Unquoted,read])

theorem joinBroken (above : List (List Char)) (front back : List Char) (below : List (List Char)) :
    joinLines (above ++ (front ++ '\n' :: back) :: below) = joinLines (above ++ front :: back :: below) := by
  induction above with
  | nil => cases below <;> simp [joinLines]
  | cons line rest ih =>
      rw [List.cons_append,List.cons_append,joinCons line (by simp),joinCons line (by simp),ih]

variable {accepts : List Char → Bool}

theorem acceptsCode (skips : SkipsIdle accepts) (above below : List (List Char)) (s : List Char)
    (closed : ∀ code ∈ above ++ codeOf s, ¬ OpensString code) :
    accepts (joinLines (above ++ s :: below)) = accepts (joinLines (above ++ (codeOf s ++ below))) := by
  induction size : s.length using Nat.strongRecOn generalizing s above with
  | ind n ih =>
    have clear : ∀ code ∈ above, ¬ OpensString code := fun code member => closed code (List.mem_append_left _ member)
    by_cases broken : '\n' ∈ s
    · obtain ⟨front,back,rfl,apart⟩ := List.eq_append_cons_of_mem broken
      have shorter : back.length < n := by
        simp only [← size,List.length_append,List.length_cons]
        omega
      rw [joinBroken,codeBreak]
      rw [codeBreak] at closed
      by_cases idle : skip front = []
      · rw [(codeLine apart).mpr idle] at closed ⊢
        rw [skips above front (back :: below) clear apart idle]
        exact ih _ shorter above back closed rfl
      · rw [codeSolid apart idle] at closed ⊢
        have rest := ih _ shorter (above ++ [front]) back (by simpa using closed) rfl
        simpa using rest
    · by_cases idle : skip s = []
      · rw [(codeLine broken).mpr idle,skips above s below clear broken idle]
        rfl
      · rw [codeSolid broken idle]
        rfl

theorem acceptsBelow (skips : SkipsIdle accepts) {head : List Char} (silent : codeOf head = []) (s : List Char) :
    accepts (head ++ '\n' :: s) = accepts s := by
  have bare := acceptsCode skips [] [s] head (by simp [silent])
  rw [silent] at bare
  exact bare

theorem checkedAlike (skips : SkipsIdle accepts) {s t : List Char}
    (same : (unescape s).map codeOf = (unescape t).map codeOf) (unquoted : Unquoted s) :
    checked accepts s = checked accepts t := by
  have alone : ∀ {text}, (∀ code ∈ codeOf text, ¬ OpensString code) →
      accepts text = accepts (joinLines (codeOf text)) := by
    intro text closed
    have bare := acceptsCode skips [] [] text closed
    rwa [List.append_nil] at bare
  unfold checked
  cases first : unescape s with
  | error fault =>
      rw [first] at same
      cases second : unescape t with
      | error other =>
          rw [second] at same
          cases same
          rfl
      | ok text =>
          rw [second] at same
          cases same
  | ok text =>
      rw [first] at same
      cases second : unescape t with
      | error other =>
          rw [second] at same
          cases same
      | ok other =>
          rw [second] at same
          have code : codeOf text = codeOf other := Except.ok.inj same
          have closed := unquoted text first
          have alike : accepts text = accepts other := by
            calc accepts text = accepts (joinLines (codeOf text)) := alone closed
              _ = accepts (joinLines (codeOf other)) := by rw [code]
              _ = accepts other := (alone (code ▸ closed)).symm
          simp only [bind,Except.bind,alike]

theorem isQuerySkips : SkipsIdle isQuery := by
  intro above line below _ _ silent
  have behind : ∀ s, skip (line ++ '\n' :: s) = skip s := by
    intro s
    rw [skip,skipEnds]
    exact if_pos silent
  cases above with
  | nil =>
      cases below with
      | nil => exact fulfilsOfSkip (t := []) silent queryGoals
      | cons next more => exact fulfilsOfSkip (behind (joinLines (next :: more))) queryGoals
  | cons first rest =>
      rw [joinAppend (List.cons_ne_nil _ _) (List.cons_ne_nil _ _)]
      cases below with
      | nil =>
          rw [List.append_nil]
          exact (fulfilsBehind (t := []) silent _ queryGoals).trans (fulfilsEnded _ queryGoals)
      | cons next more =>
          rw [joinAppend (List.cons_ne_nil _ _) (List.cons_ne_nil _ _)]
          exact fulfilsBehind (behind (joinLines (next :: more))) _ queryGoals

end PathQuery
