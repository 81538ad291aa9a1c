import PathQuery.Proofs.Query.Idle
import PathQuery.Proofs.Text.Word
import PathQuery.Text.Blank

/-! Texts cut into lines again. Lines without a break of their own come back as they were joined. -/
namespace PathQuery
open Text

def Unbroken (s : List Char) : Prop := ∀ c ∈ s, isBreak c = false

instance (s : List Char) : Decidable (Unbroken s) := List.decidableBAll (fun c => isBreak c = false) s

theorem unbrokenAppend {a b : List Char} (first : Unbroken a) (second : Unbroken b) : Unbroken (a ++ b) := by
  intro c member
  rcases List.mem_append.mp member with member | member
  · exact first c member
  · exact second c member

theorem unbrokenText {s : List Char} (plain : Unbroken s) : Unbroken (String.ofList s).toList := by
  rwa [String.toList_ofList]

theorem wordCharUnbroken {c : Char} (word : QueryOptions.isVariableChar c = true) : isBreak c = false := by
  have code := wordCharCode.mp word
  simp [isBreak]
  omega

theorem wordCharVisible {c : Char} (word : QueryOptions.isVariableChar c = true) : isBlank c = false := by
  have code := wordCharCode.mp word
  simp [isBlank]
  omega

theorem wordUnbroken {s : List Char} (word : IsWord s) : Unbroken s := fun c member =>
  wordCharUnbroken (word.2 c member)

theorem splitCons {c : Char} (plain : isBreak c = false) (rest : List Char) :
    splitLines (c :: rest) = match splitLines rest with
      | [] => [[c]]
      | line :: lines => (c :: line) :: lines := by
  rw [splitLines]
  · exact if_neg (by simp [plain])
  · rintro more rfl
    simp [isBreak] at plain

theorem splitLine {line : List Char} (whole : Unbroken line) (rest : List Char) :
    splitLines (line ++ '\n' :: rest) = line :: splitLines rest := by
  induction line with
  | nil =>
      rw [List.nil_append,splitLines]
      · rfl
      · intro more same
        simp at same
  | cons c line ih =>
      rw [List.cons_append,splitCons (whole c (by simp)),ih fun d member => whole d (List.mem_cons_of_mem _ member)]

theorem splitJoined {lines more : List (List Char)} (whole : ∀ line ∈ lines, Unbroken line) (filled : more ≠ []) :
    splitLines (joinLines (lines ++ more)) = lines ++ splitLines (joinLines more) := by
  induction lines with
  | nil => rfl
  | cons line rest ih =>
      rw [List.cons_append,joinCons line (by simp [filled]),splitLine (whole line (by simp)),
        ih fun other member => whole other (List.mem_cons_of_mem _ member),List.cons_append]

theorem splitFront {front : List Char} (whole : Unbroken front) (filled : front ≠ []) (s : List Char) :
    splitLines (front ++ s) = (front ++ (splitLines s).headD []) :: (splitLines s).tail := by
  induction front with
  | nil => exact absurd rfl filled
  | cons c front ih =>
      rw [List.cons_append,splitCons (whole c (by simp))]
      cases front with
      | nil =>
          rw [List.nil_append]
          cases splitLines s <;> rfl
      | cons d rest =>
          rw [ih (fun e member => whole e (List.mem_cons_of_mem _ member)) (List.cons_ne_nil d rest)]
          rfl

theorem splitGap {c : Char} (gap : isBreak c = true) {rest : List Char}
    (apart : ∀ more, c = '\r' → rest = '\n' :: more → False) : splitLines (c :: rest) = [] :: splitLines rest := by
  rw [splitLines]
  · exact if_pos gap
  · exact apart

theorem splitNone {s : List Char} : splitLines s = [] → s = [] := by
  fun_cases splitLines s with
  | case1 => exact fun _ => rfl
  | _ => exact fun none => by contradiction

theorem splitOpening {s line : List Char} : (splitLines s).head? = some line → line = [] ∨ line.head? = s.head? := by
  fun_cases splitLines s with
  | case1 => exact fun none => by contradiction
  | case2 | case3 => exact fun first => .inl (Option.some.inj first).symm
  | case4 | case5 => exact fun first => .inr (by rw [← Option.some.inj first]; rfl)

theorem endedPlain {c : Char} (solid : isBreak c = false) {s rest : List Char}
    (later : splitLines (s ++ '\n' :: rest) = splitLines (s ++ ['\n']) ++ splitLines rest) :
    splitLines (c :: s ++ '\n' :: rest) = splitLines (c :: s ++ ['\n']) ++ splitLines rest := by
  rw [List.cons_append,List.cons_append,splitCons solid,splitCons solid,later]
  cases ended : splitLines (s ++ ['\n']) with
  | nil => exact absurd (splitNone ended) (by simp)
  | cons line lines => rfl

theorem splitEnded (s rest : List Char) :
    splitLines (s ++ '\n' :: rest) = splitLines (s ++ ['\n']) ++ splitLines rest := by
  fun_induction splitLines s with
  | case1 => exact @splitLine [] (List.forall_mem_nil _) rest
  | case2 more ih =>
      simp only [List.cons_append,splitLines] at ih ⊢
      rw [ih]
  | case3 c s apart gap ih =>
      cases s with
      | nil =>
          by_cases same : c = '\r'
          · subst same
            simp [splitLines]
          · rw [List.cons_append,List.cons_append,splitGap gap fun _ c _ => same c,
              splitGap gap fun _ c _ => same c,ih,List.cons_append]
      | cons d s =>
          have inside : ∀ tail more : List Char, c = '\r' → d :: s ++ tail = '\n' :: more → False :=
            fun tail more same opening => apart s same (by rw [(List.cons.inj opening).1])
          calc splitLines (c :: (d :: s ++ '\n' :: rest))
            _ = [] :: (splitLines (d :: s ++ ['\n']) ++ splitLines rest) := by rw [splitGap gap (inside _),ih]
            _ = splitLines (c :: (d :: s ++ ['\n'])) ++ splitLines rest := by
              rw [splitGap gap (inside _)]
              rfl
  | case4 c s _ solid _ ih => exact endedPlain (by simpa using solid) ih
  | case5 c s _ solid _ _ _ ih => exact endedPlain (by simpa using solid) ih

theorem splitClosed (s : List Char) :
    splitLines (s ++ ['\n']) = splitLines s ∨ splitLines (s ++ ['\n']) = splitLines s ++ [[]] := by
  fun_induction splitLines s with
  | case1 => exact .inr rfl
  | case2 more ih => simpa only [List.cons_append,splitLines,List.cons.injEq,true_and] using ih
  | case3 c s apart gap ih =>
      cases s with
      | nil =>
          by_cases same : c = '\r'
          · subst same
            exact .inl (by simp [splitLines])
          · exact .inr (by rw [List.cons_append,splitGap gap fun _ c _ => same c]; rfl)
      | cons d s =>
          rw [List.cons_append,splitGap gap fun more same opening => apart s same (by rw [(List.cons.inj opening).1])]
          simpa only [List.cons_append,List.cons.injEq,true_and] using ih
  | case4 c s _ solid none _ =>
      obtain rfl := splitNone none
      rw [List.cons_append,splitCons (by simpa using solid)]
      exact .inl rfl
  | case5 c s _ solid first lines split ih =>
      rw [List.cons_append,splitCons (by simpa using solid)]
      rw [split] at ih
      rcases ih with same | more
      · exact .inl (by rw [same])
      · exact .inr (by rw [more]; rfl)

theorem splitUnbroken {s line : List Char} (member : line ∈ splitLines s) : Unbroken line := by
  fun_induction splitLines s generalizing line with
  | case1 => nomatch member
  | case2 rest ih => 
      rcases List.mem_cons.mp member with rfl | member
      · exact List.forall_mem_nil _
      · exact ih member
  | case3 c rest _ _ ih =>
      rcases List.mem_cons.mp member with rfl | member
      · exact List.forall_mem_nil _
      · exact ih member
  | case4 c rest _ solid _ _ => 
      rw [List.mem_singleton.mp member]
      simpa [Unbroken] using solid
  | case5 c rest _ solid first lines split ih =>
      rcases List.mem_cons.mp member with rfl | member
      · have later := ih (split ▸ List.mem_cons_self)
        exact List.forall_mem_cons.mpr ⟨by simpa using solid,later⟩
      · exact ih (split ▸ List.mem_cons_of_mem _ member)

theorem memJoined {lines : List (List Char)} {c : Char} (member : c ∈ joinLines lines) :
    c = '\n' ∨ ∃ line ∈ lines, c ∈ line := by
  fun_induction joinLines lines with
  | case1 => nomatch member
  | case2 line => exact .inr ⟨line,by simp,member⟩
  | case3 line next lines ih =>
      rcases List.mem_append.mp member with member | member
      · exact .inr ⟨line,by simp,member⟩
      · rcases List.mem_cons.mp member with rfl | member
        · exact .inl rfl
        · rcases ih member with same | ⟨other,there,inside⟩
          · exact .inl same
          · exact .inr ⟨other,List.mem_cons_of_mem _ there,inside⟩

def PlainBreaks (s : List Char) : Prop := ∀ c ∈ s, isBreak c = true → c = '\n'

instance (s : List Char) : Decidable (PlainBreaks s) :=
  List.decidableBAll (fun c => isBreak c = true → c = '\n') s

theorem joinedBreaks {lines : List (List Char)} (whole : ∀ line ∈ lines, Unbroken line) :
    PlainBreaks (joinLines lines) := by
  intro c member gap
  rcases memJoined member with same | ⟨line,there,inside⟩
  · exact same
  · exact absurd gap (by simp [whole line there c inside])

theorem joinedAgain {s : List Char} (breaks : PlainBreaks s) (ends : ∀ c ∈ s.getLast?, isBreak c = false) :
    joinLines (splitLines s) = s := by
  induction s with
  | nil => rfl
  | cons c rest ih =>
      have later : PlainBreaks rest := fun d member => breaks d (List.mem_cons_of_mem _ member)
      cases rest with
      | nil =>
          rw [splitCons (ends c rfl)]
          rfl
      | cons d more =>
          have joined := ih later (by simpa using ends)
          obtain ⟨line,lines,split⟩ := List.exists_cons_of_ne_nil (mt splitNone (List.cons_ne_nil d more))
          cases gap : isBreak c with
          | true =>
              obtain rfl := breaks c (by simp) gap
              rw [splitGap gap (by simp),split,joinCons _ (by simp),← split,joined]
              rfl
          | false =>
              rw [splitCons gap,split]
              rw [split] at joined
              cases lines <;> simpa [joinLines] using joined

theorem trimBetween {margin s : List Char} (blanks : ∀ c ∈ margin, isBlank c = true)
    (first : ∀ c ∈ s.head?, isBlank c = false) (last : ∀ c ∈ s.getLast?, isBlank c = false) :
    trim (margin ++ s) = s := by
  rw [trim,trimStart,dropWhileRun blanks first]
  rcases List.eq_nil_or_concat s with rfl | ⟨front,c,rfl⟩
  · rfl
  · rw [List.concat_eq_append] at last ⊢
    exact trimEndOfVisible (last c (by simp))

theorem trimAgain (s : List Char) : trim (trim s) = trim s := by
  refine @trimBetween [] _ nofun (fun c first => ?_) (trimEndLast _)
  have opens := List.head?_dropWhile_not isBlank s
  rw [show s.dropWhile isBlank = trimStart s from rfl,trimEndHead _ c first] at opens
  exact opens

theorem stripAgain (s : String) : strip (strip s) = strip s := by
  rw [strip,strip,String.toList_ofList,trimAgain]

end PathQuery
