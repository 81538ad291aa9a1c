import PathQuery.Text.Parts

/-! White space of all scripts, and what is cut off or cut apart at it. -/
namespace PathQuery.Text

def isBlank (c : Char) : Bool :=
  let n := c.toNat
  (9 ≤ n && n ≤ 13) || (28 ≤ n && n ≤ 32) || n == 0x85 || n == 0xA0 || n == 0x1680 ||
    (0x2000 ≤ n && n ≤ 0x200A) || n == 0x2028 || n == 0x2029 || n == 0x202F || n == 0x205F ||
    n == 0x3000

def trimStart (s : List Char) : List Char := s.dropWhile isBlank

def trimEnd : List Char → List Char
  | [] => []
  | c :: rest => match trimEnd rest with
    | [] => if isBlank c then [] else [c]
    | kept => c :: kept

def trim (s : List Char) : List Char := trimEnd (trimStart s)

def strip (s : String) : String := String.ofList (trim s.toList)

def allBlank (s : List Char) : Bool := s.all isBlank

def words (s : List Char) : List (List Char) := parts isBlank s

theorem trimEndOfVisible {s : List Char} {c : Char} (visible : isBlank c = false) :
    trimEnd (s ++ [c]) = s ++ [c] := by
  induction s with
  | nil => simp [trimEnd,visible]
  | cons d rest ih =>
      simp only [List.cons_append,trimEnd,ih]
      cases hr : rest ++ [c] with
      | nil => simp at hr
      | cons _ _ => rfl

theorem trimOfVisible {s : List Char} (visible : ∀ c ∈ s, isBlank c = false) : trim s = s := by
  have start : trimStart s = s := by
    cases s with
    | nil => rfl
    | cons c rest => simp [trimStart,visible c (by simp)]
  rw [trim,start]
  rcases List.eq_nil_or_concat s with rfl | ⟨front,last,rfl⟩
  · rfl
  · simpa using @trimEndOfVisible front last (visible last (by simp))

theorem trimEndLast (s : List Char) : ∀ c ∈ (trimEnd s).getLast?, isBlank c = false := by
  induction s with
  | nil => exact fun _ none => nomatch none
  | cons d rest ih =>
      unfold trimEnd
      split
      · split
        · exact fun _ none => nomatch none
        · next visible =>
          rintro _ ⟨⟩
          simpa using visible
      · next filled =>
        intro c last
        rw [List.getLast?_cons_of_ne_nil filled] at last
        exact ih c last

theorem trimEndHead (s : List Char) : ∀ c ∈ (trimEnd s).head?, s.head? = some c := by
  cases s with
  | nil => exact fun _ none => nomatch none
  | cons d rest =>
      unfold trimEnd
      split
      · split
        · exact fun _ none => nomatch none
        · exact fun _ same => same
      · exact fun _ same => same

end PathQuery.Text
