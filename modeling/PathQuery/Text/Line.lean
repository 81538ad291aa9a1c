/-! Lines of a text: where they break, and how they are put together. -/
namespace PathQuery.Text

def isBreak (c : Char) : Bool :=
  let n := c.toNat
  (10 ≤ n && n ≤ 13) || (28 ≤ n && n ≤ 30) || n == 0x85 || n == 0x2028 || n == 0x2029

def splitLines : List Char → List (List Char)
  | [] => []
  | '\r' :: '\n' :: rest => [] :: splitLines rest
  | c :: rest =>
      if isBreak c then [] :: splitLines rest else
        match splitLines rest with
        | [] => [[c]]
        | line :: lines => (c :: line) :: lines

def joinLines : List (List Char) → List Char
  | [] => []
  | [line] => line
  | line :: next :: lines => line ++ '\n' :: joinLines (next :: lines)

theorem splitLinesOfPlain {line : List Char} (plain : ∀ c ∈ line, isBreak c = false) (some : line ≠ []) :
    splitLines line = [line] := by
  induction line with
  | nil => exact absurd rfl some
  | cons c rest ih =>
      have hc := plain c (by simp)
      have keep : splitLines (c :: rest) =
          match splitLines rest with
          | [] => [[c]]
          | line :: lines => (c :: line) :: lines := by
        rw [splitLines]
        · simp [hc]
        · rintro r rfl
          simp [isBreak] at hc
      rw [keep]
      cases rest with
      | nil => rfl
      | cons d more =>
          rw [ih (fun x hx => plain x (by simp [hx])) (by simp)]

end PathQuery.Text
